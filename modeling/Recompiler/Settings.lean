import Recompiler.Guest.Encoding

/-!
# Settings of a recompiler

The sizes and limits a recompiler is built with, what makes them acceptable,
and the single reason given when they are not.  Checks run in a fixed order
and the first that fails is the one named.  Any decoder will do.
-/

namespace Recompiler

/-- The host alignment of the region a closed block is trimmed to. -/
def codeAlign : Nat := 16

def stubBytes : Nat := 4096

/-- The smallest scratch space a block may be given: room for one worst-case
guest instruction and the block's exit. -/
def leastBlockBytes : Nat := 512

/-- Sizes and limits of one recompiler. -/
structure Settings where
  /-- Bytes of host code the block region of the arena holds. -/
  arenaBytes : Nat := 8 * 1024 * 1024
  /-- Scratch space guaranteed to a block while it is open. -/
  blockBytes : Nat := 4096 * 2
  /-- Block descriptors, the two trampolines included. -/
  descriptors : Nat := 128 * 1024
  /-- Guest pages that can be watched at once. -/
  watches : Nat := 512
  /-- Guest instructions compiled into one block at most. -/
  blockInstructions : Nat := 32
  /-- Changing writes to a start byte after which it is no longer compiled. -/
  changeLimit : UInt8 := 4
  /-- Changing writes an idle page's watch survives, the last one excluded. -/
  releaseDelay : UInt32 := 16
  deriving DecidableEq, Repr

/-- Settings, and what reads guest code. -/
structure Setup extends Settings where
  decoder : Decoder := .ia32

instance : Coe Setup Settings := ⟨Setup.toSettings⟩

inductive SettingsError where
  | blockTooSmall (blockBytes : Nat)
  | arenaSize (arenaBytes blockBytes : Nat)
  | tooFewDescriptors (descriptors : Nat)
  | tooManyDescriptors (descriptors : Nat)
  | watchCount (watches : Nat)
  | noInstructions
  | changeLimit
  | releaseDelay
  deriving DecidableEq, Repr

def SettingsError.message : SettingsError → String
  | .blockTooSmall n =>
      s!"max_block_bytes {n} is below the minimum of {leastBlockBytes}"
  | .arenaSize total block =>
      s!"cache_total {total} must be a multiple of {codeAlign} and at least max_block_bytes {block}"
  | .tooFewDescriptors n =>
      s!"cache_blocks {n} leaves no descriptor besides the two trampolines"
  | .tooManyDescriptors n => s!"cache_blocks {n} exceeds the u32 id space"
  | .watchCount n => s!"code_pages must be between 1 and 65535, got {n}"
  | .noInstructions => "max_instructions must be non-zero"
  | .changeLimit => "smc_threshold must be non-zero"
  | .releaseDelay => "page_release_delay must be non-zero"

namespace Settings

/-- The first objection to `s`, if there is one. -/
def objection? (s : Settings) : Option SettingsError :=
  if s.blockBytes < leastBlockBytes then
    some (.blockTooSmall s.blockBytes)
  else if s.arenaBytes < s.blockBytes ∨ s.arenaBytes % codeAlign ≠ 0 then
    some (.arenaSize s.arenaBytes s.blockBytes)
  else if s.descriptors < 3 then
    some (.tooFewDescriptors s.descriptors)
  else if UInt32.size ≤ s.descriptors then
    some (.tooManyDescriptors s.descriptors)
  else if s.watches = 0 ∨ 65535 < s.watches then
    some (.watchCount s.watches)
  else if s.blockInstructions = 0 then
    some .noInstructions
  else if s.changeLimit = 0 then
    some .changeLimit
  else if s.releaseDelay = 0 then
    some .releaseDelay
  else
    none

/-- Settings a recompiler can be built with. -/
structure Valid (s : Settings) : Prop where
  block : leastBlockBytes ≤ s.blockBytes
  arena : s.blockBytes ≤ s.arenaBytes
  aligned : s.arenaBytes % codeAlign = 0
  descriptors : 3 ≤ s.descriptors
  ids : s.descriptors < UInt32.size
  watches : 0 < s.watches
  watchIds : s.watches ≤ 65535
  instructions : 0 < s.blockInstructions
  changes : s.changeLimit ≠ 0
  delay : s.releaseDelay ≠ 0

/-- Nothing is objected to exactly when the settings are valid. -/
theorem objection?_eq_none_iff (s : Settings) :
    s.objection? = none ↔ s.Valid := by
  constructor
  · intro h
    unfold objection? at h
    repeat' split at h
    all_goals first | contradiction | skip
    constructor <;> first | assumption | omega
  · rintro ⟨_, _, _, _, _, _, _, _, _, _⟩
    unfold objection?
    repeat rw [if_neg (by omega)]

end Settings

end Recompiler
