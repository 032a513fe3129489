/-
  ConcurrentFs.Crc32

  The checksum of log records (src/crc32.cpp): CRC-32 with the reflected
  polynomial 0xEDB88320, one table lookup a byte.  The ARM instruction path
  divides by the same polynomial and is taken to agree with the table.
-/
import ConcurrentFs.Lib.Bytes

namespace ConcurrentFs

/-- One bit of division by the polynomial. -/
def crcBit (c : BitVec 32) : BitVec 32 :=
  if c.getLsbD 0 then 0xEDB88320#32 ^^^ (c >>> 1) else c >>> 1

/-- `make_table`: what dividing a byte by the polynomial leaves behind. -/
def makeTable (i : BitVec 32) : BitVec 32 := crcBit^[8] i

/-- The loop body of `crc32`. -/
def crcByte (c : BitVec 32) (b : UInt8) : BitVec 32 :=
  makeTable ((c ^^^ b.toBitVec.setWidth 32) &&& 0xFF#32) ^^^ (c >>> 8)

/-- `crc32` of some bytes, continuing from `crc`. -/
def crc32 (bytes : List UInt8) (crc : BitVec 32) : BitVec 32 :=
  ~~~ (bytes.foldl crcByte (~~~ crc))

end ConcurrentFs
