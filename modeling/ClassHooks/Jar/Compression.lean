import ClassHooks.Jar.Bzip2.Stream
import ClassHooks.Jar.Deflate.Inflate
import ClassHooks.Jar.Lzma.Xz
import ClassHooks.Jar.Zstandard.Frame

/-!
The ways in which the data of an entry may be packed.
-/
namespace ClassHooks.Jar

inductive Compression where
  | stored
  | deflated
  | wideDeflated
  | bzip2
  | lzma
  | zstandard
  | xz
  deriving DecidableEq, Repr

namespace Compression

def ofNumber? : Nat → Option Compression
  | 0 => some .stored
  | 8 => some .deflated
  | 9 => some .wideDeflated
  | 12 => some .bzip2
  | 14 => some .lzma
  | 93 => some .zstandard
  | 95 => some .xz
  | _ => none

def unpack : Compression → Bytes → Except FileFault Bytes
  | .stored, bytes => .ok bytes
  | .deflated, bytes => inflate bytes
  | .wideDeflated, bytes => inflateWide bytes
  | .bzip2, bytes => Bzip2.unpack bytes
  | .lzma, bytes => Lzma.unpack bytes
  | .zstandard, bytes => Zstandard.unpack bytes
  | .xz, bytes => Xz.unpack bytes

end Compression
end ClassHooks.Jar
