import Straks.Construction.SignHelper
import Straks.Library.DecimalText
import Mathlib.Data.List.AList

namespace Straks.Spork

open DecimalText

structure CSporkMessage where
  vchSig : List UInt8
  nSporkID : Int32
  nValue : Int64
  nTimeSigned : Int64
  deriving DecidableEq, Repr

/-- The hash covers the memory from the identifier to the signing time, with the four alignment bytes as they happen
to be. -/
def CSporkMessage.getHash (lyra2re2Hash : List UInt8 → Uint256) (padding : UInt32)
    (spork : CSporkMessage) : Uint256 :=
  lyra2re2Hash (littleEndian 4 spork.nSporkID.toBitVec.toNat ++ littleEndian 4 padding.toNat ++
    littleEndian 8 spork.nValue.toBitVec.toNat ++ littleEndian 8 spork.nTimeSigned.toBitVec.toNat)

variable (spork : CSporkMessage)

/-- The fields that take part in the signed text. -/
def CSporkMessage.signedFields : List Int :=
  [spork.nSporkID.toInt, spork.nValue.toInt, spork.nTimeSigned.toInt]

/-- The signed text joins the decimal fields without a separator. -/
def CSporkMessage.strMessage : List Char :=
  decimalText spork.nSporkID.toInt ++ decimalText spork.nValue.toInt ++
    decimalText spork.nTimeSigned.toInt

theorem strMessage_eq_joinedText :
    spork.strMessage = joinedText spork.signedFields := by
  simp [CSporkMessage.strMessage, CSporkMessage.signedFields, joinedText]

/-- What the spork code reads from the rest of the node. -/
structure Env where
  signer : SignHelper
  lyra2re2Hash : List UInt8 → Uint256
  /-- The network identifier is the one of the main network. -/
  mainNetwork : Bool
  fProUserModeDarksendInstantX2 : Bool

def strMainPubKey : List Char :=
  "03a0d8182aa1594353051219402c79598109d80ec3ae0dd4fb7df46e8d962c7439".toList

def strTestPubKey : List Char :=
  "02f17b0c3e27065fcc400e5781d2995a8c4d9054d6aebd66149e3009c0c3f72242".toList

def Env.pubkey (env : Env) : CPubKey :=
  parseHex (if env.mainNetwork then strMainPubKey else strTestPubKey)

def checkSignature (env : Env) (spork : CSporkMessage) : Bool :=
  verifyMessage env.signer env.pubkey spork.vchSig spork.strMessage

structure SporkState where
  mapSporks : AList fun _ : Uint256 => CSporkMessage
  mapSporksActive : AList fun _ : Int32 => CSporkMessage

/-- A node starts without any spork. -/
def SporkState.empty : SporkState := ⟨∅, ∅⟩

/-- What the spork code does towards its peers. -/
inductive SporkAction where
  | misbehaving (howmuch : Nat)
  | relay (hash : Uint256)
  | pushSpork (spork : CSporkMessage)
  deriving DecidableEq

inductive SporkCommand where
  | spork (padding : UInt32) (spork : CSporkMessage)
  | getsporks

/-- An active message of the identifier signed no earlier makes the new one stale. -/
def isSeen (state : SporkState) (spork : CSporkMessage) : Bool :=
  match state.mapSporksActive.lookup spork.nSporkID with
  | some active => spork.nTimeSigned ≤ active.nTimeSigned
  | none => false

def processSpork (env : Env) (hasTip : Bool) (state : SporkState) :
    SporkCommand → SporkState × List SporkAction
  | .spork padding spork =>
    if env.fProUserModeDarksendInstantX2 then (state, [])
    else if !hasTip then (state, [])
    else if isSeen state spork then (state, [])
    else if !checkSignature env spork then (state, [.misbehaving 100])
    else
      let hash := spork.getHash env.lyra2re2Hash padding
      (⟨state.mapSporks.insert hash spork, state.mapSporksActive.insert spork.nSporkID spork⟩,
        [.relay hash])
  | .getsporks =>
    if env.fProUserModeDarksendInstantX2 then (state, [])
    else
      -- The source walks a `std::map`, so the messages leave in the order of their identifiers.
      let active := state.mapSporksActive.entries.mergeSort fun left right => left.1 ≤ right.1
      (state, active.map fun entry => .pushSpork entry.2)

end Straks.Spork
