import Straks.Construction.Primitives

namespace Straks.Chain

/-- The consensus parameters the modelled code reads. -/
structure ConsensusParams where
  BIP34Height : Int
  BIP65Height : Int
  BIP66Height : Int
  MasternodePaymentStartHeight : Int
  powLimit : Uint256
  fPowD106SwitchHeight : Int
  fPowAllowMinDifficultyBlocks : Bool
  fPowNoRetargeting : Bool
  nPowTargetSpacing : Int
  nPowTargetTimespan : Int
  nPowAveragingWindow : Int
  nPowMaxAdjustDown : Int
  nPowMaxAdjustUp : Int

namespace ConsensusParams

variable (params : ConsensusParams)

def difficultyAdjustmentInterval : Int := params.nPowTargetTimespan / params.nPowTargetSpacing

def averagingWindowTimespan : Int := params.nPowAveragingWindow * params.nPowTargetSpacing

def minActualTimespan : Int := params.averagingWindowTimespan * (100 - params.nPowMaxAdjustUp) / 100

def maxActualTimespan : Int := params.averagingWindowTimespan * (100 + params.nPowMaxAdjustDown) / 100

end ConsensusParams

inductive Network where
  | main | test | regtest
  deriving DecidableEq, Repr

/-- Every network starts from the same proof of work limit. -/
def powLimit : Uint256 := 0x00000fffff000000000000000000000000000000000000000000000000000000

def mainParams : ConsensusParams where
  BIP34Height := 1
  BIP65Height := 0
  BIP66Height := 0
  MasternodePaymentStartHeight := 50400
  powLimit := powLimit
  fPowD106SwitchHeight := 30
  fPowAllowMinDifficultyBlocks := false
  fPowNoRetargeting := false
  nPowTargetSpacing := 60
  nPowTargetTimespan := 1800
  nPowAveragingWindow := 8
  nPowMaxAdjustDown := 31
  -- The source assigns 23.7 to an integer.
  nPowMaxAdjustUp := 23

def testParams : ConsensusParams :=
  { mainParams with
    MasternodePaymentStartHeight := 1440
    fPowAllowMinDifficultyBlocks := true
    nPowTargetSpacing := 10
    nPowTargetTimespan := 60 }

def regtestParams : ConsensusParams :=
  { mainParams with
    BIP34Height := 0
    MasternodePaymentStartHeight := 1440
    fPowAllowMinDifficultyBlocks := true
    fPowNoRetargeting := true
    nPowTargetSpacing := 1
    nPowTargetTimespan := 60 }

def getConsensus : Network → ConsensusParams
  | .main => mainParams
  | .test => testParams
  | .regtest => regtestParams

end Straks.Chain
