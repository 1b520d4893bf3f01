/-!
# CRC-32

The cyclic redundancy check of image chunks: the reflected polynomial `0xEDB88320`, with all bits
inverted before and after.
-/

namespace Cartridge.Checksum

def crcBit (c : UInt32) : UInt32 :=
  if c % 2 = 1 then (c >>> 1) ^^^ 0xEDB88320 else c >>> 1

def crcBits (c : UInt32) : UInt32 :=
  crcBit (crcBit (crcBit (crcBit (crcBit (crcBit (crcBit (crcBit c)))))))

def crcByte (c : UInt32) (b : UInt8) : UInt32 := crcBits ((c ^^^ b.toUInt32) &&& 0xFF) ^^^ (c >>> 8)

def crc32 (bytes : ByteArray) : UInt32 :=
  bytes.data.foldl crcByte 0xFFFFFFFF ^^^ 0xFFFFFFFF

end Cartridge.Checksum
