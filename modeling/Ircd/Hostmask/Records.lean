import Ircd.Hostmask.Lookup

/-!
# Numbered records

Every `ConfItem` in the table has one record, and the records are numbered in the order in which
they were added. The counter of `add_conf_by_address` runs down, so a later record never beats an
earlier one.
-/
namespace Ircd.Hostmask

/-- The table after `n` records, each added under the next unused number. -/
structure Table.Numbered (t : Table) (n : ℕ) : Prop where
  counter : t.precValue.toNat + n = 0xFFFFFFFF
  bucket : ∀ hv, ∀ arec ∈ t.atable hv, hv = bucketOf arec.mask
  below : ∀ arec, t.Holds arec → arec.aconf < n
  precedence : ∀ arec, t.Holds arec → arec.precedence.toNat + arec.aconf = 0xFFFFFFFF
  once : ∀ hv, ((t.atable hv).map (·.aconf)).Nodup
  unique : ∀ arec arec', t.Holds arec → t.Holds arec' → arec.aconf = arec'.aconf → arec = arec'

theorem initHostHash_numbered (confs : ℕ → ConfItem) : (initHostHash confs).Numbered 0 := by
  constructor <;> simp [initHostHash, Table.Holds]

/-! ### The operations -/

section Operations

variable {t : Table} {n : ℕ}

@[simp] theorem holds_add (address : Option (List Char)) (type : UInt32)
    (username : Option (List Char)) (aconf : ℕ) (arec : AddressRec) :
    (addConfByAddress t address type username aconf).Holds arec ↔
      arec = ⟨maskOf (address.getD noMatch), type, t.precValue, username, aconf⟩ ∨ t.Holds arec := by
  simp only [Table.Holds, addConfByAddress]
  constructor
  · rintro ⟨hv, member⟩
    by_cases here : hv = bucketOf (maskOf (address.getD noMatch))
    · subst here
      simp only [Function.update_self, List.mem_cons] at member
      exact member.imp_right fun old => ⟨_, old⟩
    · rw [Function.update_of_ne here] at member
      exact Or.inr ⟨hv, member⟩
  · rintro (rfl | ⟨hv, member⟩)
    · exact ⟨bucketOf (maskOf (address.getD noMatch)), by simp⟩
    · refine ⟨hv, ?_⟩
      by_cases here : hv = bucketOf (maskOf (address.getD noMatch))
      · subst here
        simp [member]
      · rwa [Function.update_of_ne here]

/-- Each number stands once in the bucket, so the first record erased is the only one. -/
theorem mem_eraseP_aconf {bucket : List AddressRec} {aconf : ℕ} {arec : AddressRec}
    (once : (bucket.map (·.aconf)).Nodup) :
    arec ∈ bucket.eraseP (·.aconf = aconf) ↔ arec ∈ bucket ∧ arec.aconf ≠ aconf := by
  induction bucket with
  | nil => simp
  | cons first bucket ih =>
    simp only [List.map_cons, List.nodup_cons, List.mem_map, not_exists, not_and] at once
    by_cases same : first.aconf = aconf
    · rw [List.eraseP_cons_of_pos (by simpa using same)]
      constructor
      · exact fun member => ⟨List.mem_cons_of_mem _ member,
          fun other => once.1 arec member (other.trans same.symm)⟩
      · rintro ⟨member, other⟩
        rcases List.mem_cons.mp member with rfl | member
        · exact absurd same other
        · exact member
    · have rest := ih once.2
      rw [List.eraseP_cons_of_neg (by simpa using same), List.mem_cons, List.mem_cons]
      constructor
      · rintro (rfl | member)
        · exact ⟨Or.inl rfl, same⟩
        · exact (rest.mp member).imp_left Or.inr
      · rintro ⟨rfl | member, other⟩
        · exact Or.inl rfl
        · exact Or.inr (rest.mpr ⟨member, other⟩)

/-- A record goes when its own address is given. -/
theorem Table.Numbered.holds_delete (numbered : t.Numbered n) {address : List Char} {aconf : ℕ}
    (own : ∀ arec, t.Holds arec → arec.aconf = aconf → arec.mask = maskOf address) (arec : AddressRec) :
    (deleteOneAddressConf t address aconf).Holds arec ↔ t.Holds arec ∧ arec.aconf ≠ aconf := by
  have here : ∀ hv, ∀ r ∈ t.atable hv, r.aconf = aconf → hv = bucketOf (maskOf address) := by
    intro hv r member same
    rw [← own r ⟨hv, member⟩ same]
    exact numbered.bucket hv r member
  simp only [deleteOneAddressConf]
  split
  · have erased : arec ∈ (t.atable (bucketOf (maskOf address))).eraseP (·.aconf = aconf) ↔ _ :=
      mem_eraseP_aconf (numbered.once (bucketOf (maskOf address)))
    constructor
    · rintro ⟨hv, member⟩
      by_cases bucket : hv = bucketOf (maskOf address)
      · subst bucket
        simp only [Function.update_self] at member
        obtain ⟨member, other⟩ := erased.mp member
        exact ⟨⟨_, member⟩, other⟩
      · simp only [Function.update_of_ne bucket] at member
        exact ⟨⟨hv, member⟩, fun same => bucket (here hv arec member same)⟩
    · rintro ⟨⟨hv, member⟩, other⟩
      refine ⟨hv, ?_⟩
      by_cases bucket : hv = bucketOf (maskOf address)
      · subst bucket
        simp only [Function.update_self]
        exact erased.mpr ⟨member, other⟩
      · simpa only [Function.update_of_ne bucket] using member
  · rename_i absent
    constructor
    · rintro ⟨hv, member⟩
      refine ⟨⟨hv, member⟩, fun same => absent ?_⟩
      obtain rfl := here hv arec member same
      exact List.any_eq_true.mpr ⟨arec, member, by simpa using same⟩
    · exact fun held => held.1

theorem holds_of_delete {address : List Char} {aconf : ℕ} {arec : AddressRec}
    (holds : (deleteOneAddressConf t address aconf).Holds arec) : t.Holds arec := by
  simp only [deleteOneAddressConf] at holds
  split at holds
  · obtain ⟨hv, member⟩ := holds
    refine ⟨hv, ?_⟩
    by_cases bucket : hv = bucketOf (maskOf address)
    · subst bucket
      simp only [Function.update_self] at member
      exact List.mem_of_mem_eraseP member
    · simpa only [Function.update_of_ne bucket] using member
  · exact holds

theorem holds_clear (arec : AddressRec) :
    (clearOutAddressConf t).Holds arec ↔ t.Holds arec ∧ t.keeps arec := by
  simp only [Table.Holds, clearOutAddressConf, List.mem_filter]
  exact exists_and_right

/-- A table with fewer records is still numbered. -/
private theorem Table.Numbered.sublist {t' : Table} (numbered : t.Numbered n)
    (same : t'.precValue = t.precValue)
    (sublist : ∀ hv, (t'.atable hv).Sublist (t.atable hv)) : t'.Numbered n := by
  have held : ∀ arec, t'.Holds arec → t.Holds arec := fun arec ⟨hv, member⟩ =>
    ⟨hv, (sublist hv).subset member⟩
  constructor
  · rw [same]
    exact numbered.counter
  · exact fun hv arec member => numbered.bucket hv arec ((sublist hv).subset member)
  · exact fun arec holds => numbered.below arec (held arec holds)
  · exact fun arec holds => numbered.precedence arec (held arec holds)
  · exact fun hv => ((sublist hv).map _).nodup (numbered.once hv)
  · exact fun arec arec' holds holds' => numbered.unique arec arec' (held arec holds) (held arec' holds')

theorem Table.Numbered.delete (numbered : t.Numbered n) (address : List Char) (aconf : ℕ) :
    (deleteOneAddressConf t address aconf).Numbered n := by
  simp only [deleteOneAddressConf]
  split
  · refine numbered.sublist rfl fun hv => ?_
    by_cases bucket : hv = bucketOf (maskOf address)
    · subst bucket
      simpa using List.eraseP_sublist
    · simp [bucket]
  · exact numbered

theorem Table.Numbered.clear (numbered : t.Numbered n) : (clearOutAddressConf t).Numbered n :=
  numbered.sublist rfl fun _ => List.filter_sublist

theorem Table.Numbered.add (numbered : t.Numbered n) (few : n < 0xFFFFFFFF)
    (address : Option (List Char)) (type : UInt32) (username : Option (List Char)) :
    (addConfByAddress t address type username n).Numbered (n + 1) := by
  have counter := numbered.counter
  have less : (t.precValue - 1).toNat = t.precValue.toNat - 1 := by
    rw [UInt64.toNat_sub_of_le]
    · rfl
    · have one : UInt64.toNat 1 = 1 := rfl
      rw [UInt64.le_iff_toNat_le]
      omega
  constructor
  · show (t.precValue - 1).toNat + (n + 1) = _
    omega
  · intro hv arec member
    by_cases bucket : hv = bucketOf (maskOf (address.getD noMatch))
    · subst bucket
      simp only [addConfByAddress, Function.update_self, List.mem_cons] at member
      rcases member with rfl | member
      · rfl
      · exact numbered.bucket _ arec member
    · simp only [addConfByAddress, Function.update_of_ne bucket] at member
      exact numbered.bucket hv arec member
  · intro arec holds
    rcases (holds_add ..).mp holds with rfl | holds
    · exact Nat.lt_succ_self n
    · exact Nat.lt_succ_of_lt (numbered.below arec holds)
  · intro arec holds
    rcases (holds_add ..).mp holds with rfl | holds
    · exact counter
    · exact numbered.precedence arec holds
  · intro hv
    by_cases bucket : hv = bucketOf (maskOf (address.getD noMatch))
    · subst bucket
      simp only [addConfByAddress, Function.update_self, List.map_cons, List.nodup_cons, List.mem_map,
        not_exists, not_and]
      exact ⟨fun arec member => (numbered.below arec ⟨_, member⟩).ne, numbered.once _⟩
    · simp only [addConfByAddress, Function.update_of_ne bucket]
      exact numbered.once hv
  · intro arec arec' holds holds' same
    rcases (holds_add ..).mp holds with rfl | holds <;> rcases (holds_add ..).mp holds' with rfl | holds'
    · rfl
    · exact absurd same.symm (numbered.below arec' holds').ne
    · exact absurd same (numbered.below arec holds).ne
    · exact numbered.unique arec arec' holds holds' same

end Operations

/-! ### What the search answers -/

section Search

variable {wildMatch : List Char → List Char → Bool} {t t' : Table} {n n' : ℕ}

/-- The search for `q` looks into the bucket of the record and accepts it there. -/
def Reaches (wildMatch : List Char → List Char → Bool) (q : Query) (arec : AddressRec) : Prop :=
  ∃ probe ∈ probes wildMatch q, probe.1 = bucketOf arec.mask ∧ probe.2 arec = true

private theorem Table.Numbered.mem_candidates (numbered : t.Numbered n) (q : Query) (arec : AddressRec) :
    arec ∈ candidates wildMatch t q ↔ t.Holds arec ∧ Reaches wildMatch q arec := by
  simp only [candidates, List.mem_flatMap, List.mem_filter, Reaches]
  constructor
  · rintro ⟨probe, probed, member, accepted⟩
    exact ⟨⟨_, member⟩, probe, probed, numbered.bucket _ arec member, accepted⟩
  · rintro ⟨⟨hv, member⟩, probe, probed, bucket, accepted⟩
    refine ⟨probe, probed, ?_, accepted⟩
    rwa [bucket, ← numbered.bucket hv arec member]

/-- The search answers with the earliest record that it reaches. -/
theorem Table.Numbered.find_iff (numbered : t.Numbered n) (q : Query) (aconf : ℕ) :
    findConfByAddress wildMatch t q = some aconf ↔
      ∃ arec, t.Holds arec ∧ Reaches wildMatch q arec ∧ arec.aconf = aconf ∧
        ∀ other, t.Holds other → Reaches wildMatch q other → arec.aconf ≤ other.aconf := by
  have positive : ∀ arec, t.Holds arec → (0 : UInt64) < arec.precedence := by
    intro arec holds
    have below := numbered.below arec holds
    have place := numbered.precedence arec holds
    have counter := numbered.counter
    have zero : UInt64.toNat 0 = 0 := rfl
    rw [UInt64.lt_iff_toNat_lt]
    omega
  have order : ∀ arec other, t.Holds arec → t.Holds other →
      (other.precedence ≤ arec.precedence ↔ arec.aconf ≤ other.aconf) := by
    intro arec other holds holds'
    have place := numbered.precedence arec holds
    have place' := numbered.precedence other holds'
    rw [UInt64.le_iff_toNat_le]
    omega
  have member : ∀ arec, arec ∈ candidates wildMatch t q ↔ t.Holds arec ∧ Reaches wildMatch q arec :=
    numbered.mem_candidates q
  rw [findConfByAddress_eq]
  rcases foldl_keepBest (candidates wildMatch t q) ⟨0, none⟩ with
    ⟨same, below⟩ | ⟨best, inside, found, -, below⟩
  · -- nothing is reached
    rw [same]
    constructor
    · exact fun nothing => by cases nothing
    · rintro ⟨arec, holds, reached, -⟩
      have upto := below arec ((member arec).mpr ⟨holds, reached⟩)
      exact absurd (positive arec holds) (UInt64.not_lt.mpr upto)
  · rw [found, Option.some.injEq]
    obtain ⟨holds, reached⟩ := (member best).mp inside
    constructor
    · intro same
      refine ⟨best, holds, reached, same, fun other holds' reached' => ?_⟩
      exact (order best other holds holds').mp (below other ((member other).mpr ⟨holds', reached'⟩))
    · rintro ⟨arec, holds', reached', rfl, earliest⟩
      have upto := (order best arec holds holds').mp (below arec ((member arec).mpr ⟨holds', reached'⟩))
      exact Nat.le_antisymm upto (earliest best holds reached)

/-- What is found has a record. -/
theorem Table.Numbered.holds_of_find (numbered : t.Numbered n) {q : Query} {aconf : ℕ}
    (found : findConfByAddress wildMatch t q = some aconf) : ∃ arec, t.Holds arec ∧ arec.aconf = aconf := by
  obtain ⟨arec, holds, -, same, -⟩ := (numbered.find_iff q aconf).mp found
  exact ⟨arec, holds, same⟩

/-- A later table: whatever it holds was there before, or has been added since. -/
def Table.Later (t : Table) (n : ℕ) (t' : Table) : Prop :=
  ∀ arec, t'.Holds arec → t.Holds arec ∨ n ≤ arec.aconf

/-- A query that has found a `ConfItem` finds it as long as it keeps its record. -/
theorem Table.Numbered.find_later (numbered : t.Numbered n) (numbered' : t'.Numbered n')
    (later : t.Later n t') {q : Query} {aconf : ℕ}
    (found : findConfByAddress wildMatch t q = some aconf)
    (kept : ∃ arec, t'.Holds arec ∧ arec.aconf = aconf) :
    findConfByAddress wildMatch t' q = some aconf := by
  obtain ⟨arec, holds, reached, rfl, earliest⟩ := (numbered.find_iff q aconf).mp found
  obtain ⟨arec', holds', same⟩ := kept
  have below := numbered.below arec holds
  rcases later arec' holds' with before | new
  · obtain rfl := numbered.unique arec' arec before holds same
    refine (numbered'.find_iff q _).mpr ⟨arec', holds', reached, rfl, fun other held reached' => ?_⟩
    rcases later other held with before' | new
    · exact earliest other before' reached'
    · exact below.le.trans new
  · exact absurd (same ▸ new) (Nat.not_le.mpr below)

end Search

end Ircd.Hostmask
