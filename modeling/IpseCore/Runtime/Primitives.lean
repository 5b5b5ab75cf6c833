import Mathlib.Tactic.NormNum

/-!
# Runtime primitives

The money and time units of `runtime/src/constants.rs`, in the base unit of the balance and
in blocks, and the origins a call can come from. Every pallet's runtime parameters are
stated in these units.
-/

namespace IpseCore

/-- The origin of a call (`frame_system::RawOrigin`). -/
inductive Origin (A : Type) where
  | root
  | signed (who : A)
  | none
  deriving DecidableEq

/-- `currency::MILLICENTS`. -/
def MILLICENTS : ℕ := 1000000000

/-- `currency::CENTS`. -/
def CENTS : ℕ := 1000 * MILLICENTS

/-- `currency::DOLLARS`, the unit of the native token. -/
def DOLLARS : ℕ := 100 * CENTS

/-- `time::MILLISECS_PER_BLOCK`. -/
def MILLISECS_PER_BLOCK : ℕ := 12000

/-- `time::SECS_PER_BLOCK`. -/
def SECS_PER_BLOCK : ℕ := MILLISECS_PER_BLOCK / 1000

/-- `time::MINUTES`, in blocks. -/
def MINUTES : ℕ := 60 / SECS_PER_BLOCK

/-- `time::HOURS`, in blocks. -/
def HOURS : ℕ := MINUTES * 60

/-- `time::DAYS`, in blocks. -/
def DAYS : ℕ := HOURS * 24

/-- `time::EPOCH_DURATION_IN_BLOCKS`. -/
def EPOCH_DURATION_IN_BLOCKS : ℕ := 60 * MINUTES

theorem DOLLARS_eq : DOLLARS = 10 ^ 14 := by
  norm_num [DOLLARS, CENTS, MILLICENTS]

theorem DAYS_eq : DAYS = 7200 := by
  norm_num [DAYS, HOURS, MINUTES, SECS_PER_BLOCK, MILLISECS_PER_BLOCK]

theorem EPOCH_DURATION_IN_BLOCKS_eq : EPOCH_DURATION_IN_BLOCKS = 300 := by
  norm_num [EPOCH_DURATION_IN_BLOCKS, MINUTES, SECS_PER_BLOCK, MILLISECS_PER_BLOCK]

end IpseCore
