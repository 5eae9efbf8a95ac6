import Truthcoin.Types

namespace Truthcoin

structure HeightStamped (α : Type) where
  value : α
  height : Nat
  deriving DecidableEq, Repr

/-- A nonempty history of height-stamped values, newest first. -/
structure RollBack (α : Type) where
  latest : HeightStamped α
  earlier : List (HeightStamped α)
  deriving DecidableEq, Repr

namespace RollBack

variable {α : Type}

def new (value : α) (height : Nat) : RollBack α :=
  ⟨⟨value, height⟩, []⟩

/-- Drop the newest value; nothing remains when it was the only one. -/
def pop (r : RollBack α) : Option (RollBack α) × HeightStamped α :=
  match r.earlier with
  | [] => (none, r.latest)
  | e :: es => (some ⟨e, es⟩, r.latest)

/-- Heights never decrease along a history; a value with a lower height is
handed back as the error. -/
def push (r : RollBack α) (value : α) (height : Nat) : Except α (RollBack α) :=
  if r.latest.height > height then
    .error value
  else
    .ok ⟨⟨value, height⟩, r.latest :: r.earlier⟩

/-- The values, newest first. -/
def iterRev (r : RollBack α) : List (HeightStamped α) :=
  r.latest :: r.earlier

theorem push_eq_ok_iff {r r' : RollBack α} {value : α} {height : Nat} :
    r.push value height = .ok r' ↔
      r.latest.height ≤ height ∧ r' = ⟨⟨value, height⟩, r.latest :: r.earlier⟩ := by
  unfold push
  split
  · simp; omega
  · simp only [Except.ok.injEq]
    constructor
    · rintro rfl
      exact ⟨by omega, rfl⟩
    · rintro ⟨-, rfl⟩
      rfl

@[simp]
theorem pop_new (value : α) (height : Nat) :
    (new value height).pop = (none, ⟨value, height⟩) := rfl

@[simp]
theorem latest_new (value : α) (height : Nat) :
    (new value height).latest = ⟨value, height⟩ := rfl

theorem pop_latest (r : RollBack α) : r.pop.2 = r.latest := by
  rcases r with ⟨latest, _ | ⟨e, es⟩⟩ <;> rfl

theorem iterRev_of_pop {r prev : RollBack α} {latest : HeightStamped α}
    (h : r.pop = (some prev, latest)) : r.iterRev = latest :: prev.iterRev := by
  rcases r with ⟨_, _ | ⟨e, es⟩⟩
  · simp [pop] at h
  · simp only [pop, Prod.mk.injEq, Option.some.injEq] at h
    obtain ⟨rfl, rfl⟩ := h
    rfl

theorem iterRev_of_push {r r' : RollBack α} {value : α} {height : Nat}
    (h : r.push value height = .ok r') : r'.iterRev = ⟨value, height⟩ :: r.iterRev := by
  obtain ⟨-, rfl⟩ := push_eq_ok_iff.mp h
  rfl

theorem pop_of_push {r r' : RollBack α} {value : α} {height : Nat}
    (h : r.push value height = .ok r') :
    r'.pop = (some r, ⟨value, height⟩) := by
  obtain ⟨-, rfl⟩ := push_eq_ok_iff.mp h
  rfl

theorem latest_of_push {r r' : RollBack α} {value : α} {height : Nat}
    (h : r.push value height = .ok r') : r'.latest = ⟨value, height⟩ := by
  obtain ⟨-, rfl⟩ := push_eq_ok_iff.mp h
  rfl

end RollBack

end Truthcoin
