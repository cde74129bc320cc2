import StyleSplit.Digest.Sha256
import StyleSplit.Text.Measure

/-! Short names for contents, made from their digest. -/

namespace StyleSplit

inductive DigestFormat where
  | hex
  /-- The URL alphabet, without padding. -/
  | base64
  deriving DecidableEq, Repr

structure DigestOptions where
  format : DigestFormat := .hex
  /-- How many characters of the digest are kept. -/
  length : Nat := 20
  deriving DecidableEq, Repr

namespace Digest

def hexChar (value : Nat) : Char :=
  "0123456789abcdef".toList.getD value '0'

def toHex (bytes : List UInt8) : List Char :=
  bytes.flatMap fun byte => [hexChar (byte.toNat / 16), hexChar (byte.toNat % 16)]

def base64Char (value : Nat) : Char :=
  "ABCDEFGHIJKLMNOPQRSTUVWXYZabcdefghijklmnopqrstuvwxyz0123456789-_".toList.getD value '_'

def toBase64 : List UInt8 → List Char
  | [] => []
  | [a] =>
      let group := a.toNat * 0x10000
      [base64Char (group / 0x40000), base64Char (group / 0x1000 % 64)]
  | [a, b] =>
      let group := a.toNat * 0x10000 + b.toNat * 0x100
      [base64Char (group / 0x40000), base64Char (group / 0x1000 % 64),
        base64Char (group / 0x40 % 64)]
  | a :: b :: c :: bytes =>
      let group := a.toNat * 0x10000 + b.toNat * 0x100 + c.toNat
      base64Char (group / 0x40000) :: base64Char (group / 0x1000 % 64) ::
        base64Char (group / 0x40 % 64) :: base64Char (group % 64) :: toBase64 bytes

def render : DigestFormat → List UInt8 → List Char
  | .hex => toHex
  | .base64 => toBase64

def ofContents (contents : String) (options : DigestOptions) : String :=
  let digest := Sha256.hash (Text.utf8 contents.toList)
  .ofList ((render options.format digest).take options.length)

end Digest

end StyleSplit
