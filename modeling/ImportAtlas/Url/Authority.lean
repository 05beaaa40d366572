import ImportAtlas.Text.Ranges

/-!
# Authorities of URLs

The authority is the part of a URL between `//` and the path: a host, perhaps with a user before it
and a number after it. A host in brackets is an IPv6 address or an address of a later version.

## Summary

* `isIpv6` accepts the written forms of IPv6 addresses, with an optional zone.
* `isAcceptable` refuses an authority with a lone bracket, with brackets around anything that is
  no such address, or with a character that stands for a delimiter in compatibility forms.
-/

namespace ImportAtlas.Url

/-- A hexadecimal digit of ASCII. -/
def isHexDigit (c : Char) : Bool :=
  c.isDigit || ('a' ≤ c && c ≤ 'f') || ('A' ≤ c && c ≤ 'F')

/-- A number from 0 to 255 in decimal, without a leading zero. -/
def isOctet (cs : List Char) : Bool :=
  !cs.isEmpty && cs.all Char.isDigit && cs.length ≤ 3 && (cs.length = 1 || cs.head? ≠ some '0') &&
    cs.foldl (fun n c => n * 10 + (c.toNat - '0'.toNat)) 0 ≤ 255

/-- Four octets separated by dots. -/
def isIpv4 (cs : List Char) : Bool :=
  let octets := cs.splitOn '.'
  octets.length = 4 && octets.all isOctet

/-- One to four hexadecimal digits. -/
def isHextet (cs : List Char) : Bool :=
  !cs.isEmpty && cs.length ≤ 4 && cs.all isHexDigit

/-- The groups of an address between colons; a dotted group at the end counts as two. -/
def ipv6Groups? (cs : List Char) : Option (List (List Char)) :=
  let groups := cs.splitOn ':'
  if groups.length < 3 then none
  else match groups.getLast? with
    | some last =>
      if last.contains '.' then
        if isIpv4 last then some (groups.dropLast ++ [['0'], ['0']]) else none
      else some groups
    | none => none

/-- Eight groups of hexadecimal digits, one run of which may be left out between two colons. -/
def isIpv6Groups (groups : List (List Char)) : Bool :=
  let inner := (groups.drop 1).dropLast
  let opens := groups.head? = some []
  let closes := groups.getLast? = some []
  if groups.length > 9 then false
  else match inner.countP List.isEmpty with
    | 0 => groups.length = 8 && groups.all isHextet
    | 1 =>
      let skipAt := 1 + (inner.takeWhile (!·.isEmpty)).length
      let high := if opens then skipAt - 1 else skipAt
      let low := groups.length - skipAt - 1 - (if closes then 1 else 0)
      (!opens || high = 0) && (!closes || low = 0) && high + low < 8 &&
        (groups.filter (!·.isEmpty)).all isHextet
    | _ => false

/-- An IPv6 address; a zone that is not empty may follow a percent sign. -/
def isIpv6 (cs : List Char) : Bool :=
  let address := cs.takeWhile (· ≠ '%')
  let zone := cs.drop (address.length + 1)
  let zoneFine := cs.length = address.length || (!zone.isEmpty && !zone.contains '%')
  zoneFine && !address.isEmpty &&
    match ipv6Groups? address with
    | some groups => isIpv6Groups groups
    | none => false

/-- An address of a later version: `v`, hexadecimal digits, a dot and more on the same line. -/
def isFutureAddress (cs : List Char) : Bool :=
  match cs with
  | 'v' :: rest =>
    let digits := rest.takeWhile isHexDigit
    match rest.dropWhile isHexDigit with
    | '.' :: more => !digits.isEmpty && !more.isEmpty && !more.contains '\n'
    | _ => false
  | _ => false

/-- What may stand between brackets. -/
def isBracketed (cs : List Char) : Bool :=
  if cs.head? = some 'v' then isFutureAddress cs else isIpv6 cs

/-- The characters outside ASCII whose compatibility form holds `/`, `?`, `#`, `@` or `:`. -/
def disguisedDelimiters : Text.CodeRanges := [
    (0x2047, 0x2049), (0x2100, 0x2101), (0x2105, 0x2106), (0x2a74, 0x2a74), (0xfe13, 0xfe13),
    (0xfe16, 0xfe16), (0xfe55, 0xfe56), (0xfe5f, 0xfe5f), (0xfe6b, 0xfe6b), (0xff03, 0xff03),
    (0xff0f, 0xff0f), (0xff1a, 0xff1a), (0xff1f, 0xff20)]

/-- Whether an authority may stand in a URL. -/
def isAcceptable (authority : List Char) : Bool :=
  let opened := authority.contains '['
  let closed := authority.contains ']'
  let inside := ((authority.dropWhile (· ≠ '[')).drop 1).takeWhile (· ≠ ']')
  opened = closed && (!opened || isBracketed inside) && !authority.any disguisedDelimiters.has

end ImportAtlas.Url
