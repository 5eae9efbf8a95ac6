import Truthcoin.TwoWayPeg

/-!
# Bundle movements of coins

Every loop over the outputs of a bundle sets the unspent and the spent entry of
each output, one output at a time. A movement is described by the entries it
leaves behind.
-/

namespace Truthcoin.CoinMoves

open Truthcoin.Types Truthcoin.Table Truthcoin.Fallible Truthcoin.TwoWayPeg

/-- An outpoint outside a list of outputs. -/
def Outside (rows : List CoinRow) (o : OutPoint) : Prop :=
  ∀ row ∈ rows, row.1 ≠ o

/-- `c'` is `c` with the entries of the listed outputs set by `utxo` and `stxo`. -/
structure Moved (utxo : CoinRow → Option FilledOutput)
    (stxo : CoinRow → Option SpentOutput) (rows : List CoinRow) (c c' : Coins) :
    Prop where
  utxos_mem : ∀ row ∈ rows, c'.utxos[row.1]? = utxo row
  stxos_mem : ∀ row ∈ rows, c'.stxos[row.1]? = stxo row
  utxos_other : ∀ o, Outside rows o → c'.utxos[o]? = c.utxos[o]?
  stxos_other : ∀ o, Outside rows o → c'.stxos[o]? = c.stxos[o]?
  indexed : c.Indexed →
    (∀ row ∈ rows, utxo row ≠ none → c.utxos[row.1]? = none) → c'.Indexed

/-- The listed outputs are spent by the bundle. -/
def Spent (m6id : M6id) : List CoinRow → Coins → Coins → Prop :=
  Moved (fun _ => none) fun row => some ⟨row.2, .withdrawal m6id⟩

/-- The listed outputs are unspent again. -/
def Unspent : List CoinRow → Coins → Coins → Prop :=
  Moved (fun row => some row.2) fun _ => none

section Composition

variable {utxo utxo' : CoinRow → Option FilledOutput}
variable {stxo stxo' : CoinRow → Option SpentOutput}
variable {rows : List CoinRow} {row : CoinRow} {c c' c'' : Coins}

theorem outside_cons {o : OutPoint} (h : Outside (row :: rows) o) :
    row.1 ≠ o ∧ Outside rows o :=
  ⟨h row (by simp), fun r hr => h r (by simp [hr])⟩

theorem outside_singleton {o : OutPoint} (h : row.1 ≠ o) : Outside [row] o := by
  simpa [Outside] using h

theorem outside_of_nodup (hnodup : ((row :: rows).map Prod.fst).Nodup) :
    Outside rows row.1 := by
  intro r hr heq
  rw [List.map_cons, List.nodup_cons] at hnodup
  exact hnodup.1 (heq ▸ List.mem_map_of_mem hr)

theorem Moved.nil : Moved utxo stxo [] c c :=
  ⟨by simp, by simp, fun _ _ => rfl, fun _ _ => rfl, fun h _ => h⟩

theorem Moved.cons (hnodup : ((row :: rows).map Prod.fst).Nodup)
    (hfirst : Moved utxo stxo [row] c c') (hrest : Moved utxo stxo rows c' c'') :
    Moved utxo stxo (row :: rows) c c'' := by
  have hout := outside_of_nodup hnodup
  constructor
  · intro r hr
    rcases List.mem_cons.mp hr with rfl | hr
    · rw [hrest.utxos_other _ hout]
      exact hfirst.utxos_mem r (by simp)
    · exact hrest.utxos_mem r hr
  · intro r hr
    rcases List.mem_cons.mp hr with rfl | hr
    · rw [hrest.stxos_other _ hout]
      exact hfirst.stxos_mem r (by simp)
    · exact hrest.stxos_mem r hr
  · intro o ho
    obtain ⟨hne, ho⟩ := outside_cons ho
    rw [hrest.utxos_other o ho, hfirst.utxos_other o (outside_singleton hne)]
  · intro o ho
    obtain ⟨hne, ho⟩ := outside_cons ho
    rw [hrest.stxos_other o ho, hfirst.stxos_other o (outside_singleton hne)]
  · intro hc habsent
    refine hrest.indexed (hfirst.indexed hc (by simpa using habsent row (by simp))) ?_
    intro r hr hput
    have hne : row.1 ≠ r.1 := fun heq => hout r hr heq.symm
    rw [hfirst.utxos_other r.1 (outside_singleton hne)]
    exact habsent r (by simp [hr]) hput

theorem Moved.perm {rows' : List CoinRow} (hmem : ∀ row, row ∈ rows ↔ row ∈ rows')
    (h : Moved utxo stxo rows c c') : Moved utxo stxo rows' c c' := by
  have hout {o : OutPoint} (ho : Outside rows' o) : Outside rows o :=
    fun row hrow => ho row ((hmem row).mp hrow)
  exact ⟨fun row hrow => h.utxos_mem row ((hmem row).mpr hrow),
    fun row hrow => h.stxos_mem row ((hmem row).mpr hrow),
    fun o ho => h.utxos_other o (hout ho),
    fun o ho => h.stxos_other o (hout ho),
    fun hc habsent => h.indexed hc fun row hrow => habsent row ((hmem row).mp hrow)⟩

theorem Moved.restored (hfirst : Moved utxo stxo rows c c')
    (hsecond : Moved utxo' stxo' rows c' c'') (hindexed : c.Indexed)
    (hutxos : ∀ row ∈ rows, c.utxos[row.1]? = utxo' row)
    (hstxos : ∀ row ∈ rows, c.stxos[row.1]? = stxo' row)
    (hput : ∀ row ∈ rows, utxo row = none ∨ utxo' row = none) : c'' = c := by
  apply Coins.eq_of_indexed _ hindexed
  · apply ext_lookup
    intro o
    by_cases ho : Outside rows o
    · rw [hsecond.utxos_other o ho, hfirst.utxos_other o ho]
    · simp only [Outside, not_forall, not_not] at ho
      obtain ⟨row, hrow, rfl⟩ := ho
      rw [hsecond.utxos_mem row hrow, hutxos row hrow]
  · apply ext_lookup
    intro o
    by_cases ho : Outside rows o
    · rw [hsecond.stxos_other o ho, hfirst.stxos_other o ho]
    · simp only [Outside, not_forall, not_not] at ho
      obtain ⟨row, hrow, rfl⟩ := ho
      rw [hsecond.stxos_mem row hrow, hstxos row hrow]
  · apply hsecond.indexed
    · apply hfirst.indexed hindexed
      intro row hrow hset
      rw [hutxos row hrow]
      exact (hput row hrow).resolve_left hset
    · intro row hrow hset
      rw [hfirst.utxos_mem row hrow]
      exact (hput row hrow).resolve_right hset

theorem Moved.disjoint (h : Moved utxo stxo rows c c') (hc : c.Disjoint)
    (hrows : ∀ row ∈ rows, utxo row = none ∨ stxo row = none) : c'.Disjoint := by
  intro o
  by_cases ho : Outside rows o
  · rw [h.utxos_other o ho, h.stxos_other o ho]
    exact hc o
  · simp only [Outside, not_forall, not_not] at ho
    obtain ⟨row, hrow, rfl⟩ := ho
    rw [h.utxos_mem row hrow, h.stxos_mem row hrow]
    exact hrows row hrow

theorem moved_of_foldlM {f : Coins → CoinRow → Except Error Coins}
    (hstep : ∀ c row c', f c row = .ok c' → Moved utxo stxo [row] c c')
    (hnodup : (rows.map Prod.fst).Nodup) (hrun : rows.foldlM f c = .ok c') :
    Moved utxo stxo rows c c' := by
  induction rows generalizing c with
  | nil =>
      simp only [List.foldlM_nil, pure_eq_ok, Except.ok.injEq] at hrun
      exact hrun ▸ Moved.nil
  | cons row rows ih =>
      rw [List.foldlM_cons, bind_eq_ok_iff] at hrun
      obtain ⟨c₁, hfirst, hrest⟩ := hrun
      exact Moved.cons hnodup (hstep c row c₁ hfirst)
        (ih (List.nodup_cons.mp hnodup).2 hrest)

theorem foldlM_succeeds {f : Coins → CoinRow → Except Error Coins}
    {G : Coins → OutPoint → Prop}
    (hstep : ∀ c row, G c row.1 → ∃ c', f c row = .ok c')
    (hkeep : ∀ c row c' o, f c row = .ok c' → row.1 ≠ o → G c o → G c' o)
    (hnodup : (rows.map Prod.fst).Nodup) (hall : ∀ row ∈ rows, G c row.1) :
    ∃ c', rows.foldlM f c = .ok c' := by
  refine Fallible.foldlM_succeeds
    (I := fun rows c => (rows.map Prod.fst).Nodup ∧ ∀ row ∈ rows, G c row.1) ?_ ⟨hnodup, hall⟩
  rintro row rows c ⟨hnodup, hall⟩
  obtain ⟨c₁, hfirst⟩ := hstep c row (hall row (by simp))
  have hout := outside_of_nodup hnodup
  exact ⟨c₁, hfirst, (List.nodup_cons.mp hnodup).2, fun r hr =>
    hkeep c row c₁ r.1 hfirst (fun heq => hout r hr heq.symm) (hall r (by simp [hr]))⟩

theorem guard_of_foldlM {f : Coins → CoinRow → Except Error Coins}
    {G : Coins → OutPoint → Prop}
    (hguard : ∀ c row c', f c row = .ok c' → G c row.1)
    (hback : ∀ c row c' o, f c row = .ok c' → row.1 ≠ o → G c' o → G c o)
    (hnodup : (rows.map Prod.fst).Nodup) (hrun : rows.foldlM f c = .ok c') :
    ∀ row ∈ rows, G c row.1 := by
  induction rows generalizing c with
  | nil => simp
  | cons row rows ih =>
      rw [List.foldlM_cons, bind_eq_ok_iff] at hrun
      obtain ⟨c₁, hfirst, hrest⟩ := hrun
      have hout := outside_of_nodup hnodup
      intro r hr
      rcases List.mem_cons.mp hr with rfl | hr
      · exact hguard c r c₁ hfirst
      · exact hback c row c₁ r.1 hfirst (fun heq => hout r hr heq.symm)
          (ih (List.nodup_cons.mp hnodup).2 hrest r hr)

end Composition

section Loops

variable {m6id : M6id} {rows : List CoinRow} {c c' : Coins}

def HasUtxo (c : Coins) (o : OutPoint) : Prop := c.utxos[o]? ≠ none

def HasStxo (c : Coins) (o : OutPoint) : Prop := c.stxos[o]? ≠ none

theorem spend_moved (m6id : M6id) (c : Coins) (row : CoinRow) :
    Spent m6id [row] c
      ((c.deleteUtxo row.1).1.putStxo row.1 ⟨row.2, .withdrawal m6id⟩) := by
  refine ⟨by simp, by simp, ?_, ?_, fun hc _ => hc.deleteUtxo row.1⟩
  · intro o ho
    simp [ho row (by simp)]
  · intro o ho
    simp [ho row (by simp)]

theorem spendStep_moved {missing : OutPoint → Error} {c : Coins} {row : CoinRow}
    (h : (match c.deleteUtxo row.1 with
      | (_, false) => .error (missing row.1)
      | (c, true) => .ok (c.putStxo row.1 ⟨row.2, .withdrawal m6id⟩)) =
        Except.ok c') :
    HasUtxo c row.1 ∧ Spent m6id [row] c c' := by
  have hflag := Coins.deleteUtxo_flag c row.1
  have hmoved := spend_moved m6id c row
  rcases hd : c.deleteUtxo row.1 with ⟨d, flag⟩
  rw [hd] at h hflag hmoved
  cases flag with
  | false => simp at h
  | true =>
      simp only [Except.ok.injEq] at h
      exact ⟨hflag.mp rfl, h ▸ hmoved⟩

theorem spendBundleUtxos_spent {missing : OutPoint → Error}
    (hnodup : (rows.map Prod.fst).Nodup)
    (h : spendBundleUtxos missing m6id rows c = .ok c') :
    Spent m6id rows c c' :=
  moved_of_foldlM (fun _ _ _ hstep => (spendStep_moved hstep).2) hnodup h

theorem hasUtxo_of_spendBundleUtxos {missing : OutPoint → Error}
    (hnodup : (rows.map Prod.fst).Nodup)
    (h : spendBundleUtxos missing m6id rows c = .ok c') :
    ∀ row ∈ rows, HasUtxo c row.1 := by
  apply guard_of_foldlM (G := HasUtxo) _ _ hnodup h
  · exact fun _ _ _ hstep => (spendStep_moved hstep).1
  · intro c row c' o hstep hne hutxo
    rwa [HasUtxo, ← (spendStep_moved hstep).2.utxos_other o (outside_singleton hne)]

theorem foldl_putStxo_stxos (m6id : M6id) (hnodup : (rows.map Prod.fst).Nodup)
    (c : Coins) {d : Coins} (hd : rows.foldl
      (fun c row => c.putStxo row.1 ⟨row.2, .withdrawal m6id⟩) c = d) :
    (∀ row ∈ rows, d.stxos[row.1]? = some ⟨row.2, .withdrawal m6id⟩) ∧
      ∀ o, Outside rows o → d.stxos[o]? = c.stxos[o]? := by
  induction rows generalizing c with
  | nil => simp_all
  | cons row rows ih =>
      obtain ⟨hmem, hother⟩ := ih (List.nodup_cons.mp hnodup).2 _ hd
      constructor
      · intro r hr
        rcases List.mem_cons.mp hr with rfl | hr
        · rw [hother r.1 (outside_of_nodup hnodup)]
          simp
        · exact hmem r hr
      · intro o ho
        obtain ⟨hne, ho⟩ := outside_cons ho
        rw [hother o ho]
        simp [hne]

theorem spendAllUtxos_spent (m6id : M6id) (c : Coins) :
    Spent m6id c.utxos.toList c (spendAllUtxos m6id c) := by
  obtain ⟨hmem, hother⟩ := foldl_putStxo_stxos m6id (toList_keys_nodup c.utxos) c rfl
  refine ⟨by simp [spendAllUtxos, Coins.clearUtxos], hmem, ?_, hother,
    fun _ _ => Coins.Indexed.clearUtxos _⟩
  intro o ho
  have habsent : c.utxos[o]? = none := by
    cases hlookup : c.utxos[o]? with
    | none => rfl
    | some output => exact absurd rfl (ho (o, output) (mem_toList_iff.mpr hlookup))
  simp [spendAllUtxos, Coins.clearUtxos, habsent]

theorem takeBack_moved (c : Coins) (row : CoinRow) :
    Unspent [row] c ((c.deleteStxo row.1).1.insertUtxo row.1 row.2) := by
  refine ⟨by simp, by simp, ?_, ?_, ?_⟩
  · intro o ho
    simp [ho row (by simp)]
  · intro o ho
    simp [ho row (by simp)]
  · intro hc habsent
    exact (hc.deleteStxo row.1).insertUtxo (habsent row (by simp) (by simp)) row.2

theorem reinstateUtxos_unspent (hnodup : (rows.map Prod.fst).Nodup) :
    Unspent rows c (reinstateUtxos rows c) := by
  induction rows generalizing c with
  | nil => exact Moved.nil
  | cons row rows ih =>
      exact Moved.cons hnodup (takeBack_moved c row)
        (ih (List.nodup_cons.mp hnodup).2)

theorem unspendStep_moved {c : Coins} {row : CoinRow}
    (h : (match c.deleteStxo row.1 with
      | (_, false) => .error (Error.noStxo row.1)
      | (c, true) => .ok (c.insertUtxo row.1 row.2)) = Except.ok c') :
    HasStxo c row.1 ∧ Unspent [row] c c' := by
  have hflag := Coins.deleteStxo_flag c row.1
  have hmoved := takeBack_moved c row
  rcases hd : c.deleteStxo row.1 with ⟨d, flag⟩
  rw [hd] at h hflag hmoved
  cases flag with
  | false => simp at h
  | true =>
      simp only [Except.ok.injEq] at h
      exact ⟨hflag.mp rfl, h ▸ hmoved⟩

theorem unspendBundleUtxos_unspent (hnodup : (rows.map Prod.fst).Nodup)
    (h : unspendBundleUtxos rows c = .ok c') : Unspent rows c c' :=
  moved_of_foldlM (fun _ _ _ hstep => (unspendStep_moved hstep).2) hnodup h

theorem unspendBundleUtxos_succeeds (hnodup : (rows.map Prod.fst).Nodup)
    (hall : ∀ row ∈ rows, HasStxo c row.1) :
    ∃ c', unspendBundleUtxos rows c = .ok c' := by
  apply foldlM_succeeds (G := HasStxo) _ _ hnodup hall
  · intro c row hrow
    have hflag := (Coins.deleteStxo_flag c row.1).mpr hrow
    rcases hd : c.deleteStxo row.1 with ⟨d, flag⟩
    rw [hd] at hflag
    cases hflag
    exact ⟨_, rfl⟩
  · intro c row c' o hstep hne hstxo
    rwa [HasStxo, (unspendStep_moved hstep).2.stxos_other o (outside_singleton hne)]

theorem unconfirmStep_moved {c : Coins} {row : CoinRow}
    (h : (match (c.insertUtxo row.1 row.2).deleteStxo row.1 with
      | (_, false) => .error (Error.noStxo row.1)
      | (c, true) => .ok c) = Except.ok c') :
    HasStxo c row.1 ∧ Unspent [row] c c' := by
  have hflag := Coins.deleteStxo_flag (c.insertUtxo row.1 row.2) row.1
  have hmoved : Unspent [row] c ((c.insertUtxo row.1 row.2).deleteStxo row.1).1 :=
    takeBack_moved c row
  rcases hd : (c.insertUtxo row.1 row.2).deleteStxo row.1 with ⟨d, flag⟩
  rw [hd] at h hflag hmoved
  cases flag with
  | false => simp at h
  | true =>
      simp only [Except.ok.injEq] at h
      exact ⟨hflag.mp rfl, h ▸ hmoved⟩

theorem unconfirmUtxos_unspent (hnodup : (rows.map Prod.fst).Nodup)
    (h : unconfirmUtxos rows c = .ok c') : Unspent rows c c' :=
  moved_of_foldlM (fun _ _ _ hstep => (unconfirmStep_moved hstep).2) hnodup h

theorem unconfirmUtxos_succeeds (hnodup : (rows.map Prod.fst).Nodup)
    (hall : ∀ row ∈ rows, HasStxo c row.1) :
    ∃ c', unconfirmUtxos rows c = .ok c' := by
  apply foldlM_succeeds (G := HasStxo) _ _ hnodup hall
  · intro c row hrow
    have hflag := (Coins.deleteStxo_flag (c.insertUtxo row.1 row.2) row.1).mpr hrow
    rcases hd : (c.insertUtxo row.1 row.2).deleteStxo row.1 with ⟨d, flag⟩
    rw [hd] at hflag
    cases hflag
    exact ⟨d, rfl⟩
  · intro c row c' o hstep hne hstxo
    rwa [HasStxo, (unconfirmStep_moved hstep).2.stxos_other o (outside_singleton hne)]

theorem respend_moved (m6id : M6id) (c : Coins) (row : CoinRow) :
    Spent m6id [row] c
      ((c.putStxo row.1 ⟨row.2, .withdrawal m6id⟩).deleteUtxo row.1).1 := by
  refine ⟨by simp, by simp, ?_, ?_, fun hc _ => ?_⟩
  · intro o ho
    simp [ho row (by simp)]
  · intro o ho
    simp [ho row (by simp)]
  · exact (hc.putStxo row.1 ⟨row.2, .withdrawal m6id⟩).deleteUtxo row.1

theorem respendStep_moved {c : Coins} {row : CoinRow}
    (h : (match (c.putStxo row.1 ⟨row.2, .withdrawal m6id⟩).deleteUtxo row.1 with
      | (_, false) => .error (Error.noUtxo row.1)
      | (c, true) => .ok c) = Except.ok c') :
    HasUtxo c row.1 ∧ Spent m6id [row] c c' := by
  have hflag := Coins.deleteUtxo_flag
    (c.putStxo row.1 ⟨row.2, .withdrawal m6id⟩) row.1
  have hmoved := respend_moved m6id c row
  rcases hd : (c.putStxo row.1 ⟨row.2, .withdrawal m6id⟩).deleteUtxo row.1 with
    ⟨d, flag⟩
  rw [hd] at h hflag hmoved
  cases flag with
  | false => simp at h
  | true =>
      simp only [Except.ok.injEq] at h
      exact ⟨hflag.mp rfl, h ▸ hmoved⟩

theorem respendUtxos_spent (hnodup : (rows.map Prod.fst).Nodup)
    (h : respendUtxos m6id rows c = .ok c') : Spent m6id rows c c' :=
  moved_of_foldlM (fun _ _ _ hstep => (respendStep_moved hstep).2) hnodup h

theorem hasUtxo_of_respendUtxos (hnodup : (rows.map Prod.fst).Nodup)
    (h : respendUtxos m6id rows c = .ok c') : ∀ row ∈ rows, HasUtxo c row.1 := by
  apply guard_of_foldlM (G := HasUtxo) _ _ hnodup h
  · exact fun _ _ _ hstep => (respendStep_moved hstep).1
  · intro c row c' o hstep hne hutxo
    rwa [HasUtxo, ← (respendStep_moved hstep).2.utxos_other o (outside_singleton hne)]

theorem respendUtxos_succeeds (hnodup : (rows.map Prod.fst).Nodup)
    (hall : ∀ row ∈ rows, HasUtxo c row.1) :
    ∃ c', respendUtxos m6id rows c = .ok c' := by
  apply foldlM_succeeds (G := HasUtxo) _ _ hnodup hall
  · intro c row hrow
    have hflag := (Coins.deleteUtxo_flag
      (c.putStxo row.1 ⟨row.2, .withdrawal m6id⟩) row.1).mpr hrow
    rcases hd : (c.putStxo row.1 ⟨row.2, .withdrawal m6id⟩).deleteUtxo row.1 with
      ⟨d, flag⟩
    rw [hd] at hflag
    cases hflag
    exact ⟨d, rfl⟩
  · intro c row c' o hstep hne hutxo
    rwa [HasUtxo, (respendStep_moved hstep).2.utxos_other o (outside_singleton hne)]

end Loops

end Truthcoin.CoinMoves
