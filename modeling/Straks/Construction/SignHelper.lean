import Straks.Construction.Primitives

namespace Straks

abbrev CPubKey := List UInt8

abbrev CKeyID := BitVec 160

/-- The cryptographic primitives of the signer are parameters. -/
structure SignHelper where
  /-- The hash of the strings given to a `CHashWriter`. -/
  getHash : List (List Char) → Uint256
  /-- The key a compact signature of the hash recovers to. -/
  recoverCompact : Uint256 → List UInt8 → Option CPubKey
  getID : CPubKey → CKeyID

def strMessageMagic : List Char := "Straks Signed Message:\n".toList

/-- A signature verifies when the recovered key has the expected identifier. -/
def verifyMessage (signer : SignHelper) (pubkey : CPubKey) (vchSig : List UInt8)
    (strMessage : List Char) : Bool :=
  match signer.recoverCompact (signer.getHash [strMessageMagic, strMessage]) vchSig with
  | none => false
  | some pubkey2 => signer.getID pubkey2 == signer.getID pubkey

/-- No signature verifies for two messages under the key. -/
def SignHelper.Binding (signer : SignHelper) (pubkey : CPubKey) : Prop :=
  ∀ vchSig left right, verifyMessage signer pubkey vchSig left = true →
    verifyMessage signer pubkey vchSig right = true → left = right

def hexDigit (symbol : Char) : Option Nat :=
  if '0' ≤ symbol ∧ symbol ≤ '9' then some (symbol.toNat - '0'.toNat)
  else if 'a' ≤ symbol ∧ symbol ≤ 'f' then some (symbol.toNat - 'a'.toNat + 10)
  else if 'A' ≤ symbol ∧ symbol ≤ 'F' then some (symbol.toNat - 'A'.toNat + 10)
  else none

def isSpace (symbol : Char) : Bool :=
  symbol == ' ' || (9 ≤ symbol.toNat && symbol.toNat ≤ 13)

/-- Reading stops at the first non-hexadecimal symbol and drops an unpaired digit. -/
def parseHex : List Char → List UInt8
  | [] => []
  | symbol :: rest =>
    if isSpace symbol then parseHex rest
    else
      match hexDigit symbol, rest with
      | some high, next :: rest =>
        match hexDigit next with
        | some low => UInt8.ofNat (high * 16 + low) :: parseHex rest
        | none => []
      | _, _ => []

end Straks
