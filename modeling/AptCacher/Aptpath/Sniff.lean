import AptCacher.Gpg.Clearsign
import AptCacher.Proxy.Request

/-!
# Sniffs

What the first bytes of a body say about the file that it was fetched for.

* `sniffReleaseGPG`, `sniffRelease`, `sniffFlatIndex`: the sniffs besides `sniffInRelease`.
* `SuiteFile.headBytes`, `SuiteFile.sniff`: how much a sniff needs, and the sniff of a file.
-/

namespace AptCacher.Aptpath

def sniffHeadBytes : ℕ := 512

/-- `ReleaseSniffBytes`: 64 KiB. -/
def releaseSniffBytes : ℕ := 65536

def armorSigBegin : Str := "-----BEGIN PGP SIGNATURE-----".toList

/-- `sigPacketBodyOffset`: where the body of the signature packet starts, an old-format or a
new-format one. -/
def sigPacketBodyOffset : Str → Option ℕ
  | [] => none
  | tag :: rest =>
    if 0x88 ≤ tag.toNat ∧ tag.toNat ≤ 0x8b then [2, 3, 5, 1][tag.toNat % 4]?
    else if tag.toNat = 0xc2 then
      rest.head?.map fun l =>
        if l.toNat < 192 then 2 else if l.toNat ≤ 223 then 3 else if l.toNat = 255 then 6 else 2
    else none

/-- `SniffReleaseGPG`: the armor header behind blanks, or a signature packet of version 3 to 6. -/
def sniffReleaseGPG (head : Str) : Bool :=
  armorSigBegin.isPrefixOf (head.dropWhile [' ', '\t', '\r', '\n'].contains) ||
    (sigPacketBodyOffset head).any fun off => head[off]?.any fun b => 3 ≤ b.toNat && b.toNat ≤ 6

/-- `SniffRelease`: the header line of a hash block in the first 64 KiB. -/
def sniffRelease (head : Str) : Bool :=
  ((head.take releaseSniffBytes).splitOn '\n').any fun line =>
    ["SHA256:", "SHA512:", "SHA1:", "MD5Sum:"].any fun field =>
      line.rdropWhile ['\r', ' ', '\t'].contains == field.toList

/-- `flatIndexMagic`, by the extension. -/
def flatIndexMagic : List (Str × Str) :=
  [(".gz".toList, [0x1f, 0x8b].map Char.ofNat),
   (".xz".toList, [0xfd, 0x37, 0x7a, 0x58, 0x5a, 0x00].map Char.ofNat),
   (".bz2".toList, "BZh".toList),
   (".lzma".toList, [0x5d, 0x00, 0x00].map Char.ofNat),
   (".lz4".toList, [0x04, 0x22, 0x4d, 0x18].map Char.ofNat),
   (".zst".toList, [0x28, 0xb5, 0x2f, 0xfd].map Char.ofNat)]

/-- `SniffFlatIndex`: the magic of the extension; an uncompressed index starts with a package. -/
def sniffFlatIndex (name head : Str) : Bool :=
  ["Packages", "Sources"].any fun stem =>
    name == stem.toList && "Package:".toList.isPrefixOf head ||
      flatIndexMagic.any fun m => name == stem.toList ++ m.1 && m.2.isPrefixOf head

/-- The last segment of a path. -/
def baseName (path : Str) : Str := path.rtakeWhile (· ≠ '/')

namespace SuiteFile

def headBytes : SuiteFile → ℕ
  | .release => releaseSniffBytes
  | _ => sniffHeadBytes

def sniff (path head : Str) : SuiteFile → Bool
  | .inRelease => sniffInRelease head
  | .release => sniffRelease head
  | .releaseGPG => sniffReleaseGPG head
  | .flatIndex => sniffFlatIndex (baseName path) head
  | .notSuiteFile => false

end SuiteFile

example : sniffRelease "Origin: x\nSHA256: \r\n".toList = true := by decide +kernel

example : sniffFlatIndex "Packages.bz2".toList "BZh91".toList = true := by decide +kernel

end AptCacher.Aptpath
