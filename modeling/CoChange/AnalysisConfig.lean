import CoChange.Selector.Parser
import CoChange.Text.Blank

/-!
# Settings of an analysis
-/

namespace CoChange

/-- What an analysis is run with. -/
structure AnalysisConfig where
  structuralQuery : String
  nameQuery : String
  /-- The largest number of touched units whose pairs are counted; zero for no limit. -/
  maxCouplingUnits : Nat
  shards : Nat
  /-- The number of commits between two checkpoints. -/
  chunkSize : Nat
  maxMemoryBytes : Nat
  checkpointDir : Option String
  deriving DecidableEq, Repr, Inhabited

/-- Why settings are refused. -/
inductive ConfigFault where
  | emptyStructuralQuery
  | emptyNameQuery
  | noShards
  | noChunkSize
  | noMemory
  deriving DecidableEq, Repr

def ConfigFault.message : ConfigFault → String
  | emptyStructuralQuery => "Structural query must not be empty"
  | emptyNameQuery => "Name query must not be empty"
  | noShards => "Shard count must be greater than zero"
  | noChunkSize => "Chunk size must be greater than zero"
  | noMemory => "Maximum memory bytes must be greater than zero"

namespace AnalysisConfig

/-- The settings that hold where nothing else is said. -/
def defaults : AnalysisConfig where
  structuralQuery := UnitQuery.defaultStructural
  nameQuery := UnitQuery.defaultName
  maxCouplingUnits := 500
  shards := 1
  chunkSize := 1000
  maxMemoryBytes := 256 * 1024 * 1024
  checkpointDir := none

/-- Refuses settings that no analysis can be run with. A query of blanks is as good as none. -/
def validate (c : AnalysisConfig) : Except ConfigFault Unit :=
  if c.structuralQuery.toList.all Text.isBlank then .error .emptyStructuralQuery
  else if c.nameQuery.toList.all Text.isBlank then .error .emptyNameQuery
  else if c.shards = 0 then .error .noShards
  else if c.chunkSize = 0 then .error .noChunkSize
  else if c.maxMemoryBytes = 0 then .error .noMemory
  else .ok ()

end AnalysisConfig

end CoChange
