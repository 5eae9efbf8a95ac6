import Truthcoin.ExactNumbers

/-!
# Elementary numbers

A countable type of numbers whose operations do not round. Rational numbers are computed with;
the others are terms that come with the integers around their values, so that examples can be
run in exact arithmetic as far as they round.
-/

namespace Truthcoin

/-- What the operations make of rational numbers. -/
inductive NumberTerm where
  | rat (q : ℚ)
  | add (a b : NumberTerm)
  | sub (a b : NumberTerm)
  | mul (a b : NumberTerm)
  | div (a b : NumberTerm)
  | log (a : NumberTerm)
  | exp (a : NumberTerm)
  deriving DecidableEq

deriving instance Countable for NumberTerm

noncomputable def NumberTerm.eval : NumberTerm → ℝ
  | .rat q => q
  | .add a b => a.eval + b.eval
  | .sub a b => a.eval - b.eval
  | .mul a b => a.eval * b.eval
  | .div a b => a.eval / b.eval
  | .log a => Real.log a.eval
  | .exp a => Real.exp a.eval

inductive Elementary where
  | rational (q : ℚ)
  | term (t : NumberTerm) (floor ceil : ℤ) (hfloor : floor = ⌊t.eval⌋) (hceil : ceil = ⌈t.eval⌉)

namespace Elementary

noncomputable def val : Elementary → ℝ
  | rational q => q
  | term t _ _ _ _ => t.eval

def toTerm : Elementary → NumberTerm
  | rational q => .rat q
  | term t _ _ _ _ => t

noncomputable def ofTerm (t : NumberTerm) : Elementary :=
  term t ⌊t.eval⌋ ⌈t.eval⌉ rfl rfl

@[simp] theorem val_rational (q : ℚ) : (rational q).val = q := rfl

@[simp] theorem val_ofTerm (t : NumberTerm) : (ofTerm t).val = t.eval := rfl

@[simp] theorem eval_toTerm (a : Elementary) : a.toTerm.eval = a.val := by
  cases a <;> rfl

theorem term_eq_iff {t t' : NumberTerm} {floor ceil floor' ceil' : ℤ} {hfloor : floor = ⌊t.eval⌋}
    {hceil : ceil = ⌈t.eval⌉} {hfloor' : floor' = ⌊t'.eval⌋} {hceil' : ceil' = ⌈t'.eval⌉} :
    term t floor ceil hfloor hceil = term t' floor' ceil' hfloor' hceil' ↔ t = t' := by
  constructor
  · intro h
    exact (Elementary.term.inj h).1
  · rintro rfl
    subst hfloor hceil hfloor' hceil'
    rfl

instance : DecidableEq Elementary
  | rational p, rational q => decidable_of_iff (p = q) (by simp)
  | term t _ _ _ _, term t' _ _ _ _ => decidable_of_iff (t = t') term_eq_iff.symm
  | rational _, term _ _ _ _ _ => isFalse (by simp)
  | term _ _ _ _ _, rational _ => isFalse (by simp)

instance : Countable Elementary := by
  let code : Elementary → ℚ ⊕ NumberTerm
    | rational q => .inl q
    | term t _ _ _ _ => .inr t
  refine Function.Injective.countable (f := code) ?_
  rintro (p | ⟨t, _, _, _, _⟩) (q | ⟨t', _, _, _, _⟩) h
  · rw [Sum.inl.inj h]
  · cases h
  · cases h
  · exact term_eq_iff.mpr (Sum.inr.inj h)

/-- Compute on rational numbers, and make a term otherwise. -/
noncomputable def combine (onRational : ℚ → ℚ → ℚ) (onTerm : NumberTerm → NumberTerm → NumberTerm) :
    Elementary → Elementary → Elementary
  | rational p, rational q => rational (onRational p q)
  | a, b => ofTerm (onTerm a.toTerm b.toTerm)

open Classical in
/-- Compare with integers by the integers around a number. -/
noncomputable def lt : Elementary → Elementary → Bool
  | rational p, rational q => decide (p < q)
  | term t floor _ _ _, rational q =>
      if q.den = 1 then decide (floor < q.num) else decide (t.eval < q)
  | a, b => decide (a.val < b.val)

open Classical in
noncomputable def le : Elementary → Elementary → Bool
  | rational p, rational q => decide (p ≤ q)
  | term t _ ceil _ _, rational q =>
      if q.den = 1 then decide (ceil ≤ q.num) else decide (t.eval ≤ q)
  | a, b => decide (a.val ≤ b.val)

theorem lt_iff (a b : Elementary) : lt a b = true ↔ a.val < b.val := by
  rcases a with p | ⟨t, _, _, rfl, rfl⟩ <;> rcases b with q | ⟨t', _, _, rfl, rfl⟩
  · exact decide_eq_true_iff.trans Rat.cast_lt.symm
  · exact decide_eq_true_iff
  · change (if q.den = 1 then decide (⌊t.eval⌋ < q.num) else decide (t.eval < q)) = true ↔
      t.eval < q
    split
    · rename_i hden
      have hq : q = (q.num : ℚ) := ((Rat.den_eq_one_iff q).mp hden).symm
      rw [decide_eq_true_iff, Int.floor_lt]
      conv_rhs => rw [hq]
      rw [Rat.cast_intCast]
    · exact decide_eq_true_iff
  · exact decide_eq_true_iff

theorem le_iff (a b : Elementary) : le a b = true ↔ a.val ≤ b.val := by
  rcases a with p | ⟨t, _, _, rfl, rfl⟩ <;> rcases b with q | ⟨t', _, _, rfl, rfl⟩
  · exact decide_eq_true_iff.trans Rat.cast_le.symm
  · exact decide_eq_true_iff
  · change (if q.den = 1 then decide (⌈t.eval⌉ ≤ q.num) else decide (t.eval ≤ q)) = true ↔
      t.eval ≤ q
    split
    · rename_i hden
      have hq : q = (q.num : ℚ) := ((Rat.den_eq_one_iff q).mp hden).symm
      rw [decide_eq_true_iff, Int.ceil_le]
      conv_rhs => rw [hq]
      rw [Rat.cast_intCast]
    · exact decide_eq_true_iff
  · exact decide_eq_true_iff

/-- The term of a product with zero is left out. -/
noncomputable def mul (a b : Elementary) : Elementary :=
  if a = rational 0 ∨ b = rational 0 then rational 0 else combine (· * ·) .mul a b

noncomputable def floor : Elementary → ℤ
  | rational q => q.floor
  | term _ floor _ _ _ => floor

noncomputable def ceil : Elementary → ℤ
  | rational q => q.ceil
  | term _ _ ceil _ _ => ceil

noncomputable def round : Elementary → ℚ
  | rational q => roundRat q
  | term t _ _ _ _ => (⌊F64.round t.eval⌋ : ℤ)

theorem floor_log_two : (0 : ℤ) = ⌊(NumberTerm.log (.rat 2)).eval⌋ := by
  have hlow := Real.log_two_gt_d9
  have hhigh := Real.log_two_lt_d9
  have heval : (NumberTerm.log (.rat 2)).eval = Real.log 2 := by simp [NumberTerm.eval]
  rw [heval, eq_comm, Int.floor_eq_zero_iff]
  constructor
  · linarith
  · linarith

theorem ceil_log_two : (1 : ℤ) = ⌈(NumberTerm.log (.rat 2)).eval⌉ := by
  have hlow := Real.log_two_gt_d9
  have hhigh := Real.log_two_lt_d9
  have heval : (NumberTerm.log (.rat 2)).eval = Real.log 2 := by simp [NumberTerm.eval]
  rw [heval, eq_comm, Int.ceil_eq_iff]
  push_cast
  constructor
  · linarith
  · linarith

/-- The logarithm of two comes with the integers around it. -/
noncomputable def log (a : Elementary) : Elementary :=
  if a = rational 1 then rational 0
  else if a = rational 2 then term (.log (.rat 2)) 0 1 floor_log_two ceil_log_two
  else ofTerm (.log a.toTerm)

noncomputable def exp (a : Elementary) : Elementary :=
  if a = rational 0 then rational 1 else ofTerm (.exp a.toTerm)

noncomputable instance : ExpF64 Elementary where
  ofRat := rational
  lt := lt
  le := le
  eq a b := le a b && le b a
  add := combine (· + ·) .add
  sub := combine (· - ·) .sub
  mul := mul
  div := combine (· / ·) .div
  abs a := if lt a (rational 0) then combine (· - ·) .sub (rational 0) a else a
  max a b := if lt a b then b else a
  floor a := rational a.floor
  ceil a := rational a.ceil
  round a := rational a.round
  log := log
  isNan _ := false
  isFinite _ := true
  toU64 a := (max 0 (min (2 ^ 64 - 1) a.floor)).toNat
  toI64 a := max (-2 ^ 63) (min (2 ^ 63 - 1) (if lt a (rational 0) then a.ceil else a.floor))
  display
    | rational q => toString q
    | term _ _ _ _ _ => "an elementary number"
  exp := exp

theorem val_combine {onRational : ℚ → ℚ → ℚ} {onTerm : NumberTerm → NumberTerm → NumberTerm}
    {op : ℝ → ℝ → ℝ} (hrational : ∀ p q, ((onRational p q : ℚ) : ℝ) = op p q)
    (hterm : ∀ a b, (onTerm a b).eval = op a.eval b.eval) (a b : Elementary) :
    (combine onRational onTerm a b).val = op a.val b.val := by
  rcases a with p | ⟨t, _, _, _, _⟩ <;> rcases b with q | ⟨t', _, _, _, _⟩
  · exact hrational p q
  all_goals exact hterm _ _

theorem floor_eq (a : Elementary) : a.floor = ⌊a.val⌋ := by
  rcases a with q | ⟨t, _, _, rfl, rfl⟩
  · exact (Rat.floor_cast q).symm
  · rfl

theorem ceil_eq (a : Elementary) : a.ceil = ⌈a.val⌉ := by
  rcases a with q | ⟨t, _, _, rfl, rfl⟩
  · exact (ceil_rat q).trans (Rat.ceil_cast q).symm
  · rfl

theorem val_round (a : Elementary) : ((a.round : ℚ) : ℝ) =
    if a.val < 0 then -(⌊-a.val + 1 / 2⌋ : ℝ) else ⌊a.val + 1 / 2⌋ := by
  rcases a with q | ⟨t, _, _, _, _⟩
  · exact exactOps_rat.round q
  · rw [round, Rat.cast_intCast]
    change ((⌊if t.eval < 0 then _ else _⌋ : ℤ) : ℝ) = if t.eval < 0 then _ else _
    split
    · rw [← Int.cast_neg, Int.floor_intCast, Int.cast_neg]
      rfl
    · rw [Int.floor_intCast]
      rfl

theorem val_mul (a b : Elementary) : (mul a b).val = a.val * b.val := by
  unfold mul
  split
  · rename_i hzero
    rcases hzero with rfl | rfl <;> simp
  · exact val_combine Rat.cast_mul (fun _ _ => rfl) a b

theorem val_log (a : Elementary) : (log a).val = Real.log a.val := by
  unfold log
  split
  · rename_i hone
    subst hone
    simp
  · split
    · rename_i htwo
      subst htwo
      rfl
    · exact congrArg Real.log (eval_toTerm a)

theorem val_exp (a : Elementary) : (exp a).val = Real.exp a.val := by
  unfold exp
  split
  · rename_i hzero
    subst hzero
    simp
  · exact congrArg Real.exp (eval_toTerm a)

/-- The operations on elementary numbers are those of the real numbers. -/
theorem exactReal_elementary : ExactReal val where
  ofRat _ := rfl
  lt := lt_iff
  le := le_iff
  ceil a := (Rat.cast_intCast a.ceil).trans (by rw [ceil_eq])
  floor a := (Rat.cast_intCast a.floor).trans (by rw [floor_eq])
  toU64 a n hlt ha := by
    change (Max.max 0 (min (2 ^ 64 - 1) a.floor)).toNat = n
    rw [floor_eq, ha, Int.floor_natCast]
    omega
  add := val_combine Rat.cast_add fun _ _ => rfl
  sub := val_combine Rat.cast_sub fun _ _ => rfl
  mul := val_mul
  div := val_combine Rat.cast_div fun _ _ => rfl
  max a b := by
    change (if lt a b = true then b else a).val = _
    split
    · rename_i hlt
      exact (max_eq_right ((lt_iff a b).mp hlt).le).symm
    · rename_i hge
      exact (max_eq_left (not_lt.mp fun hlt => hge ((lt_iff a b).mpr hlt))).symm
  round := val_round
  log := val_log
  exp := val_exp

end Elementary

end Truthcoin
