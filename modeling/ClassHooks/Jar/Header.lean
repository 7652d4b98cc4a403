import ClassHooks.Jar.Entry
import ClassHooks.Text.Lossy

/-!
What the central directory of a jar says about an entry.
-/
namespace ClassHooks.Jar

def upperCharacters : String :=
  "ÇüéâäàåçêëèïîìÄÅÉæÆôöòûùÿÖÜ¢£¥₧ƒáíóúñÑªº¿⌐¬½¼¡«»░▒▓│┤╡╢╖╕╣║╗╝╜╛┐└┴┬├─┼╞╟╚╔╩╦╠═╬╧╨╤╥╙╘╒╓╫╪┘┌█▄▌▐▀" ++
  "αßΓπΣσµτΦΘΩδ∞φε∩≡±≥≤⌠⌡÷≈°∙·√ⁿ²■\u00A0"

def oldName (bytes : Bytes) : String :=
  let upper := upperCharacters.toList.toArray
  String.ofList (bytes.map fun b =>
    if b < 128 then Char.ofNat b.toNat else upper.getD (b.toNat - 128) '?')

def decodeText (isUtf8 : Bool) (bytes : Bytes) : String :=
  if isUtf8 then Text.lossy bytes else oldName bytes

structure Header where
  name : String
  nameBytes : Bytes
  comment : String
  encrypted : Bool
  /-- Encrypted by the scheme that is told in an extra field. -/
  sealed : Bool
  method : Nat
  stamp : Stamp
  checksum : Nat
  /-- Bytes of the data as they are kept. -/
  size : Nat
  /-- Bytes of the data themselves. -/
  fullSize : Nat
  offset : Nat
  deriving Repr

namespace Header

def addTo (headers : List Header) (h : Header) : List Header :=
  if headers.any (·.name = h.name) then
    headers.map fun other => if other.name = h.name then h else other
  else headers ++ [h]

end Header
end ClassHooks.Jar
