import Ircd.Hostmask.AddressTable
import Ircd.Lib.Glob

/-!
# Completeness of the address lookup

A search probes only some buckets. A record whose mask matches is in one of them if its
prefix covers the first octet, or if it is a host mask: the text behind the last wildcard
ends the name that it matches.
-/
namespace Ircd.Hostmask

/-- Equality of characters up to case. -/
def SameChar (c d : Char) : Prop := toLower c = toLower d

instance : DecidableRel SameChar := fun c d => inferInstanceAs (Decidable (toLower c = toLower d))

def tokenOf (c : Char) : Glob.Token Char :=
  if c = '*' then .star else if c = '?' then .any else .lit c

/-- A mask without backslashes stands for a wildcard pattern. -/
def ExactMatch (wildMatch : List Char → List Char → Bool) : Prop :=
  ∀ mask name, '\\' ∉ mask →
    (wildMatch mask name = true ↔ Glob.Matches SameChar (mask.map tokenOf) name)

/-- The record matches, wherever it is stored. -/
def MatchesQuery (wildMatch : List Char → List Char → Bool) (q : Query) (arec : AddressRec) : Prop :=
  arec.type = q.type &&& ~~~1 ∧
    (q.type &&& 1 ≠ 0 ∨
      ∃ mask, arec.username = some mask ∧ wildMatch mask (q.username.getD []) = true) ∧
    match arec.mask with
    | .ipv4 mask bits => ∃ addr, q.addr = some addr ∧ q.fam = afInet ∧ matchIpv4 addr mask bits = true
    | .host hostname => ∃ name, q.name = some name ∧ wildMatch hostname name = true

def Table.Holds (t : Table) (arec : AddressRec) : Prop := ∃ hv, arec ∈ t.atable hv

/-- The record of highest precedence among those in the table that match. -/
def IsBest (wildMatch : List Char → List Char → Bool) (t : Table) (q : Query) (arec : AddressRec) :
    Prop :=
  t.Holds arec ∧ MatchesQuery wildMatch q arec ∧
    ∀ other, t.Holds other → MatchesQuery wildMatch q other → other ≠ arec →
      other.precedence < arec.precedence

/-- The search finds the best record, and nothing only when nothing matches. -/
def AnswersBest (wildMatch : List Char → List Char → Bool) (t : Table) (q : Query) : Prop :=
  match findConfByAddress wildMatch t q with
  | some aconf => ∃ arec, IsBest wildMatch t q arec ∧ arec.aconf = aconf
  | none => ∀ arec, t.Holds arec → ¬ MatchesQuery wildMatch q arec

/-! ### The loop keeps the best candidate -/

/-- The records that the search accepts in the buckets it looks through. -/
def candidates (wildMatch : List Char → List Char → Bool) (t : Table) (q : Query) :
    List AddressRec :=
  (probes wildMatch q).flatMap fun probe => (t.atable probe.1).filter probe.2

/-- One turn of the loop, at a record that the search accepts. -/
def keepBest (found : Found) (arec : AddressRec) : Found :=
  if arec.precedence > found.hprecv then ⟨arec.precedence, some arec.aconf⟩ else found

private theorem searchBucket_eq (accepts : AddressRec → Bool) (found : Found)
    (bucket : List AddressRec) :
    searchBucket accepts found bucket = (bucket.filter accepts).foldl keepBest found := by
  unfold searchBucket
  induction bucket generalizing found with
  | nil => rfl
  | cons arec bucket ih =>
    rw [List.foldl_cons, ih]
    cases accepted : accepts arec <;> simp [accepted, keepBest]

theorem findConfByAddress_eq (wildMatch : List Char → List Char → Bool) (t : Table)
    (q : Query) :
    findConfByAddress wildMatch t q =
      ((candidates wildMatch t q).foldl keepBest ⟨0, none⟩).hprec := by
  unfold findConfByAddress candidates
  generalize probes wildMatch q = list
  generalize (⟨0, none⟩ : Found) = found
  induction list generalizing found with
  | nil => rfl
  | cons probe list ih =>
    rw [List.foldl_cons, List.flatMap_cons, List.foldl_append, searchBucket_eq]
    exact ih _

/-- Either nothing has beaten the start value, or the best of the list has. -/
theorem foldl_keepBest (records : List AddressRec) (start : Found) :
    (records.foldl keepBest start = start ∧ ∀ arec ∈ records, arec.precedence ≤ start.hprecv) ∨
      ∃ arec ∈ records, records.foldl keepBest start = ⟨arec.precedence, some arec.aconf⟩ ∧
        start.hprecv < arec.precedence ∧ ∀ other ∈ records, other.precedence ≤ arec.precedence := by
  induction records generalizing start with
  | nil => exact Or.inl ⟨rfl, by simp⟩
  | cons arec records ih =>
    rw [List.foldl_cons]
    by_cases better : arec.precedence > start.hprecv
    · have step : keepBest start arec = ⟨arec.precedence, some arec.aconf⟩ := if_pos better
      rw [step]
      rcases ih ⟨arec.precedence, some arec.aconf⟩ with ⟨same, below⟩ | ⟨best, member, found, beats, below⟩
      · exact Or.inr ⟨arec, by simp, same, better, by simpa using below⟩
      · refine Or.inr ⟨best, by simp [member], found, UInt64.lt_trans better beats, ?_⟩
        intro other inside
        rcases List.mem_cons.mp inside with rfl | inside
        · exact UInt64.le_of_lt beats
        · exact below other inside
    · have step : keepBest start arec = start := if_neg better
      rw [step]
      rcases ih start with ⟨same, below⟩ | ⟨best, member, found, beats, below⟩
      · refine Or.inl ⟨same, fun other inside => ?_⟩
        rcases List.mem_cons.mp inside with rfl | inside
        · exact UInt64.not_lt.mp better
        · exact below other inside
      · refine Or.inr ⟨best, by simp [member], found, beats, fun other inside => ?_⟩
        rcases List.mem_cons.mp inside with rfl | inside
        · exact UInt64.le_trans (UInt64.not_lt.mp better) (UInt64.le_of_lt beats)
        · exact below other inside

/-! ### Where host masks are stored -/

private def Plain (text : List Char) : Prop := ∀ c ∈ text, c ≠ '*' ∧ c ≠ '?'

private theorem tokens_of_plain {text : List Char} (plain : Plain text) :
    text.map tokenOf = text.map .lit := by
  apply List.map_congr_left
  intro c member
  simp [tokenOf, plain c member]

private theorem maskHashLoop_none {front behind hp : List Char}
    (none : maskHashLoop front behind hp = none) : Plain front := by
  induction front generalizing behind hp with
  | nil => exact fun c member => by cases member
  | cons c front ih =>
    unfold maskHashLoop at none
    split at none
    · cases none
    · rename_i noWildcard
      intro d member
      rcases List.mem_cons.mp member with rfl | member
      · simpa using noWildcard
      · exact ih none d member

/-- Behind the last wildcard the mask ends in a dot and the hashed text, or has no dot. -/
private theorem maskHashLoop_some {front behind hp text : List Char} (plain : Plain behind)
    (dotted : hp = [] ∨ ∃ mid, behind = mid ++ '.' :: hp)
    (found : maskHashLoop front behind hp = some text) :
    ∃ start tail, front.reverse ++ behind = start ++ tail ∧ Plain tail ∧
      (text = [] ∨ ∃ mid, tail = mid ++ '.' :: text) := by
  induction front generalizing behind hp with
  | nil => cases found
  | cons c front ih =>
    unfold maskHashLoop at found
    split at found
    · obtain rfl := Option.some.inj found
      exact ⟨(c :: front).reverse, behind, rfl, plain, dotted⟩
    · rename_i noWildcard
      have plain' : Plain (c :: behind) := by
        intro d member
        rcases List.mem_cons.mp member with rfl | member
        · simpa using noWildcard
        · exact plain d member
      have dotted' : (if c = '.' then behind else hp) = [] ∨
          ∃ mid, c :: behind = mid ++ '.' :: if c = '.' then behind else hp := by
        by_cases dot : c = '.'
        · simp only [dot, if_true]
          exact Or.inr ⟨[], rfl⟩
        · simp only [dot, if_false]
          rcases dotted with nothing | ⟨mid, rfl⟩
          · exact Or.inl nothing
          · exact Or.inr ⟨c :: mid, rfl⟩
      obtain ⟨start, tail, split, rest⟩ := ih plain' dotted' found
      exact ⟨start, tail, by simpa using split, rest⟩

private theorem mem_afterDots (front text : List Char) : text ∈ afterDots (front ++ '.' :: text) := by
  induction front with
  | nil => simp [afterDots]
  | cons c front ih =>
    rw [List.cons_append, afterDots]
    split
    · exact List.mem_cons_of_mem _ ih
    · exact ih

private theorem toLower_eq_dot {c : Char} (same : SameChar '.' c) : c = '.' := by
  have dot : toLower '.' = '.' := rfl
  unfold SameChar at same
  rw [dot, toLower] at same
  split at same
  · -- a letter is moved to a code point from 97 on
    rename_i letter
    have low : 65 ≤ c.toNat := letter.1
    have high : c.toNat ≤ 94 := letter.2
    have code := congrArg Char.toNat same
    rw [toNat_charOfNat (c.toNat + 32) (by omega)] at code
    have value : '.'.toNat = 46 := rfl
    omega
  · exact same.symm

private theorem suffix_of_forall₂ {text : List Char} (mid : List Char) {ending : List Char}
    (same : List.Forall₂ SameChar (mid ++ '.' :: text) ending) :
    ∃ text', '.' :: text' <:+ ending ∧ List.Forall₂ SameChar text text' := by
  induction mid generalizing ending with
  | nil =>
    cases same with
    | cons equal rest =>
      obtain rfl := toLower_eq_dot equal
      exact ⟨_, List.suffix_rfl, rest⟩
  | cons c mid ih =>
    cases same with
    | cons equal rest =>
      obtain ⟨text', here, same'⟩ := ih rest
      exact ⟨text', here.trans (List.suffix_cons _ _), same'⟩

/-- A name that a host mask matches has the mask's bucket among its probes. -/
private theorem getMaskHash_probed {mask name : List Char}
    (holds : Glob.Matches SameChar (mask.map tokenOf) name) :
    getMaskHash mask = 0 ∨ ∃ p ∈ name :: afterDots name, getMaskHash mask = hashText p := by
  unfold getMaskHash
  cases found : maskHashLoop mask.reverse [] [] with
  | none =>
    -- no wildcard: the name is the mask
    have plain : Plain mask := fun c member => maskHashLoop_none found c (by simpa using member)
    rw [tokens_of_plain plain] at holds
    have same := (Glob.matches_lits SameChar mask name).mp holds
    exact Or.inr ⟨name, by simp, hashText_congr same⟩
  | some text =>
    obtain ⟨start, tail, split, plain, dotted⟩ :=
      maskHashLoop_some (fun c member => by cases member) (Or.inl rfl) found
    rcases dotted with rfl | ⟨mid, rfl⟩
    · exact Or.inl rfl
    · have mask_eq : mask.map tokenOf = start.map tokenOf ++ (mid ++ '.' :: text).map .lit := by
        rw [← tokens_of_plain plain, ← List.map_append, ← split]
        simp
      rw [mask_eq] at holds
      obtain ⟨ending, ⟨front, rfl⟩, same⟩ := Glob.matches_suffix SameChar holds
      obtain ⟨text', here, same'⟩ := suffix_of_forall₂ mid same
      obtain ⟨front', rfl⟩ := here
      refine Or.inr ⟨text', ?_, hashText_congr same'⟩
      rw [← List.append_assoc]
      exact List.mem_cons_of_mem _ (mem_afterDots _ text')

/-! ### Where records are stored -/

/-- Masks that the search is laid out for. -/
def Mask.Searchable : Mask → Prop
  | .ipv4 _ bits => 8 ≤ bits ∧ bits ≤ 32
  | .host hostname => '\\' ∉ hostname

instance (mask : Mask) : Decidable mask.Searchable :=
  match mask with
  | .ipv4 _ bits => inferInstanceAs (Decidable (8 ≤ bits ∧ bits ≤ 32))
  | .host hostname => inferInstanceAs (Decidable ('\\' ∉ hostname))

/-- After `n` records have been added. -/
private structure Stored (n : ℕ) (t : Table) : Prop where
  counter : t.precValue.toNat + n = 0xFFFFFFFF
  bucket : ∀ hv, ∀ arec ∈ t.atable hv, hv = bucketOf arec.mask
  searchable : ∀ hv, ∀ arec ∈ t.atable hv, arec.mask.Searchable
  older : ∀ hv, ∀ arec ∈ t.atable hv, t.precValue < arec.precedence
  distinct : ∀ arec arec', t.Holds arec → t.Holds arec' → arec.precedence = arec'.precedence →
    arec = arec'

/-- A table with fewer records. -/
private theorem stored_of_subset {n : ℕ} {t t' : Table} (stored : Stored n t)
    (same : t'.precValue = t.precValue) (subset : ∀ hv, t'.atable hv ⊆ t.atable hv) :
    Stored n t' where
  counter := by rw [same]; exact stored.counter
  bucket hv arec member := stored.bucket hv arec (subset hv member)
  searchable hv arec member := stored.searchable hv arec (subset hv member)
  older hv arec member := by rw [same]; exact stored.older hv arec (subset hv member)
  distinct arec arec' := fun ⟨hv, member⟩ ⟨hv', member'⟩ =>
    stored.distinct arec arec' ⟨hv, subset hv member⟩ ⟨hv', subset hv' member'⟩

private theorem stored_add {n : ℕ} {t : Table} (stored : Stored n t) (few : n < 0xFFFFFFFF)
    (address : Option (List Char)) (type : UInt32) (username : Option (List Char)) (aconf : ℕ)
    (searchable : (maskOf (address.getD noMatch)).Searchable) :
    Stored (n + 1) (addConfByAddress t address type username aconf) := by
  have counter := stored.counter
  have less : (t.precValue - 1).toNat = t.precValue.toNat - 1 := by
    rw [UInt64.toNat_sub_of_le]
    · rfl
    · have one : UInt64.toNat 1 = 1 := rfl
      rw [UInt64.le_iff_toNat_le]
      omega
  have below : t.precValue - 1 < t.precValue := by
    rw [UInt64.lt_iff_toNat_lt, less]
    omega
  have member_iff : ∀ hv arec, arec ∈ (addConfByAddress t address type username aconf).atable hv ↔
      (hv = bucketOf (maskOf (address.getD noMatch)) ∧
        arec = ⟨maskOf (address.getD noMatch), type, t.precValue, username, aconf⟩) ∨
      arec ∈ t.atable hv := by
    intro hv arec
    by_cases here : hv = bucketOf (maskOf (address.getD noMatch))
    · subst here
      simp [addConfByAddress]
    · simp [addConfByAddress, here]
  refine ⟨?_, ?_, ?_, ?_, ?_⟩
  · show (t.precValue - 1).toNat + (n + 1) = _
    omega
  · intro hv arec member
    rcases (member_iff hv arec).mp member with ⟨here, rfl⟩ | old
    · exact here
    · exact stored.bucket hv arec old
  · intro hv arec member
    rcases (member_iff hv arec).mp member with ⟨-, rfl⟩ | old
    · exact searchable
    · exact stored.searchable hv arec old
  · intro hv arec member
    rcases (member_iff hv arec).mp member with ⟨-, rfl⟩ | old
    · exact below
    · exact UInt64.lt_trans below (stored.older hv arec old)
  · rintro arec arec' ⟨hv, member⟩ ⟨hv', member'⟩ equal
    rcases (member_iff hv arec).mp member with ⟨-, rfl⟩ | old <;>
      rcases (member_iff hv' arec').mp member' with ⟨-, rfl⟩ | old'
    · rfl
    · have := stored.older hv' arec' old'
      simp only [← equal, UInt64.lt_irrefl] at this
    · have := stored.older hv arec old
      simp only [equal, UInt64.lt_irrefl] at this
    · exact stored.distinct arec arec' ⟨hv, old⟩ ⟨hv', old'⟩ equal

/-- The texts given to `add_conf_by_address`. -/
def added (ops : List Op) : List (List Char) :=
  ops.filterMap fun
    | .add address _ _ _ => some (address.getD noMatch)
    | _ => none

private theorem stored_run (confs : ℕ → ConfItem) (ops : List Op)
    (searchable : ∀ address ∈ added ops, (maskOf address).Searchable)
    (few : (added ops).length < 2 ^ 32) : Stored (added ops).length (Table.run confs ops) := by
  induction ops using List.reverseRecOn with
  | nil =>
    refine ⟨rfl, ?_, ?_, ?_, ?_⟩ <;> simp [Table.run, initHostHash, Table.Holds]
  | append_singleton ops op ih =>
    have split : added (ops ++ [op]) = added ops ++ added [op] := List.filterMap_append
    rw [split] at searchable few
    rw [List.length_append] at few
    have before := ih (fun address member => searchable address (by simp [member])) (by omega)
    have next : Table.run confs (ops ++ [op]) = (Table.run confs ops).step op := by
      simp only [Table.run, List.foldl_append, List.foldl_cons, List.foldl_nil]
    rw [split, next]
    cases op with
    | add address type username aconf =>
      have one : added [.add address type username aconf] = [address.getD noMatch] := rfl
      rw [one, List.length_singleton] at few
      rw [one, List.length_append, List.length_singleton]
      exact stored_add before (by omega) address type username aconf (searchable _ (by simp [one]))
    | delete address aconf =>
      have none : added [.delete address aconf] = [] := rfl
      rw [none, List.append_nil]
      unfold Table.step
      simp only [deleteOneAddressConf]
      split
      · refine stored_of_subset before rfl fun hv => ?_
        by_cases here : hv = bucketOf (maskOf address)
        · subst here
          simpa using List.eraseP_subset
        · simp [here]
      · exact before
    | clear =>
      have none : added [.clear] = [] := rfl
      rw [none, List.append_nil]
      exact stored_of_subset before rfl fun hv => List.filter_subset_self _
    | touch aconf conf =>
      have none : added [.touch aconf conf] = [] := rfl
      rw [none, List.append_nil]
      exact stored_of_subset before rfl fun hv => List.Subset.refl _

/-! ### The search -/

private theorem acceptsUser_iff (wildMatch : List Char → List Char → Bool) (q : Query)
    (arec : AddressRec) :
    acceptsUser wildMatch q arec = true ↔ arec.type = q.type &&& ~~~1 ∧
      (q.type &&& 1 ≠ 0 ∨
        ∃ mask, arec.username = some mask ∧ wildMatch mask (q.username.getD []) = true) := by
  simp [acceptsUser, Option.any_eq_true]

private theorem acceptsAddr_iff (wildMatch : List Char → List Char → Bool) {q : Query}
    {addr : UInt32} (given : q.addr = some addr) (inet : q.fam = afInet) (arec : AddressRec) :
    acceptsAddr wildMatch q addr arec = true ↔
      MatchesQuery wildMatch q arec ∧ ∃ mask bits, arec.mask = .ipv4 mask bits := by
  unfold acceptsAddr MatchesQuery
  rw [Bool.and_eq_true, acceptsUser_iff]
  cases shape : arec.mask <;> simp [given, inet, and_assoc]

private theorem acceptsName_iff (wildMatch : List Char → List Char → Bool) {q : Query}
    {name : List Char} (given : q.name = some name) (arec : AddressRec) :
    acceptsName wildMatch q name arec = true ↔
      MatchesQuery wildMatch q arec ∧ ∃ hostname, arec.mask = .host hostname := by
  unfold acceptsName MatchesQuery
  rw [Bool.and_eq_true, acceptsUser_iff]
  cases shape : arec.mask <;> simp [given, and_assoc]

private theorem mem_probes (wildMatch : List Char → List Char → Bool) (q : Query)
    (probe : ℕ × (AddressRec → Bool)) :
    probe ∈ probes wildMatch q ↔
      (∃ addr, q.addr = some addr ∧ q.fam = afInet ∧ ∃ b ∈ ([32, 24, 16, 8, 0] : List ℤ),
        probe = (hashIpv4 addr b, acceptsAddr wildMatch q addr)) ∨
      ∃ name, q.name = some name ∧
        ((∃ p ∈ name :: afterDots name, probe = (hashText p, acceptsName wildMatch q name)) ∨
          probe = (0, acceptsName wildMatch q name)) := by
  unfold probes
  rw [List.mem_append]
  apply or_congr
  · cases given : q.addr with
    | none => simp
    | some addr =>
      by_cases inet : q.fam = afInet
      · simp only [inet, if_true, List.mem_map, Option.some.injEq, exists_eq_left', true_and, eq_comm]
      · simp [inet]
  · cases given : q.name with
    | none => simp
    | some name =>
      simp only [List.mem_append, List.mem_map, List.mem_singleton, Option.some.injEq,
        exists_eq_left', eq_comm]

private theorem rounded_mem {bits : ℤ} (low : 8 ≤ bits) (high : bits ≤ 32) :
    bits - bits.tmod 8 ∈ ([32, 24, 16, 8, 0] : List ℤ) := by
  interval_cases bits <;> decide

/-- The search accepts nothing but matching records, and reaches all of them. -/
private theorem mem_candidates_iff {wildMatch : List Char → List Char → Bool} {n : ℕ} {t : Table}
    (exact' : ExactMatch wildMatch) (stored : Stored n t) (q : Query) (arec : AddressRec) :
    arec ∈ candidates wildMatch t q ↔ t.Holds arec ∧ MatchesQuery wildMatch q arec := by
  unfold candidates
  rw [List.mem_flatMap]
  constructor
  · rintro ⟨probe, probed, inside⟩
    obtain ⟨member, accepted⟩ := List.mem_filter.mp inside
    refine ⟨⟨_, member⟩, ?_⟩
    rcases (mem_probes wildMatch q probe).mp probed with
      ⟨addr, given, inet, b, -, rfl⟩ | ⟨name, given, ⟨p, -, rfl⟩ | rfl⟩
    · exact ((acceptsAddr_iff wildMatch given inet arec).mp accepted).1
    · exact ((acceptsName_iff wildMatch given arec).mp accepted).1
    · exact ((acceptsName_iff wildMatch given arec).mp accepted).1
  · rintro ⟨⟨hv, member⟩, matched⟩
    have here := stored.bucket hv arec member
    have searchable := stored.searchable hv arec member
    have target := matched.2.2
    cases shape : arec.mask with
    | ipv4 mask bits =>
      rw [shape] at here searchable target
      obtain ⟨low, high⟩ := searchable
      obtain ⟨addr, given, inet, hit⟩ := target
      have probed := (mem_probes wildMatch q _).mpr
        (Or.inl ⟨addr, given, inet, _, rounded_mem low high, rfl⟩)
      have bucket : hv = hashIpv4 addr (bits - bits.tmod 8) :=
        here.trans (hashIpv4_of_match low high hit)
      have accepted := (acceptsAddr_iff wildMatch given inet arec).mpr ⟨matched, mask, bits, shape⟩
      exact ⟨_, probed, List.mem_filter.mpr ⟨bucket ▸ member, accepted⟩⟩
    | host hostname =>
      rw [shape] at here searchable target
      obtain ⟨name, given, hit⟩ := target
      have accepted := (acceptsName_iff wildMatch given arec).mpr ⟨matched, hostname, shape⟩
      rcases getMaskHash_probed ((exact' hostname name searchable).mp hit) with zero | ⟨p, listed, equal⟩
      · have probed := (mem_probes wildMatch q _).mpr (Or.inr ⟨name, given, Or.inr rfl⟩)
        have bucket : hv = 0 := here.trans zero
        exact ⟨_, probed, List.mem_filter.mpr ⟨bucket ▸ member, accepted⟩⟩
      · have probed := (mem_probes wildMatch q _).mpr
          (Or.inr ⟨name, given, Or.inl ⟨p, listed, rfl⟩⟩)
        have bucket : hv = hashText p := here.trans equal
        exact ⟨_, probed, List.mem_filter.mpr ⟨bucket ▸ member, accepted⟩⟩

/-- While all address masks cover the first octet and fewer than 2^32 records have been
added, the lookup is complete. -/
theorem lookup_complete {wildMatch : List Char → List Char → Bool} (exact' : ExactMatch wildMatch)
    (confs : ℕ → ConfItem) (ops : List Op)
    (searchable : ∀ address ∈ added ops, (maskOf address).Searchable)
    (few : (added ops).length < 2 ^ 32) (q : Query) :
    AnswersBest wildMatch (Table.run confs ops) q := by
  have stored := stored_run confs ops searchable few
  have member := mem_candidates_iff exact' stored q
  have positive : ∀ arec ∈ candidates wildMatch (Table.run confs ops) q,
      (0 : UInt64) < arec.precedence := by
    intro arec inside
    obtain ⟨⟨hv, held⟩, -⟩ := (member arec).mp inside
    have older := UInt64.lt_iff_toNat_lt.mp (stored.older hv arec held)
    rw [UInt64.lt_iff_toNat_lt]
    exact Nat.zero_lt_of_lt older
  unfold AnswersBest
  rw [findConfByAddress_eq]
  rcases foldl_keepBest (candidates wildMatch (Table.run confs ops) q) ⟨0, none⟩ with
    ⟨same, below⟩ | ⟨best, inside, found, -, below⟩
  · rw [same]
    intro arec held matched
    have inside := (member arec).mpr ⟨held, matched⟩
    exact UInt64.not_lt.mpr (below arec inside) (positive arec inside)
  · rw [found]
    obtain ⟨held, matched⟩ := (member best).mp inside
    refine ⟨best, ⟨held, matched, fun other held' matched' different => ?_⟩, rfl⟩
    have upto := below other ((member other).mpr ⟨held', matched'⟩)
    rcases UInt64.lt_or_eq_of_le upto with less | equal
    · exact less
    · exact absurd (stored.distinct other best held' held equal) different

/-- A `match` that is exact. -/
def globMatch (mask name : List Char) : Bool := Glob.run SameChar (mask.map tokenOf) name

theorem globMatch_exact : ExactMatch globMatch := fun _ _ _ => Glob.run_iff SameChar _ _

theorem lookup_complete_two_bans :
    let ops := [Op.add (some ['1', '0', '.', '0', '.', '0', '.', '0', '/', '8']) 0x40 (some ['*']) 1,
      Op.add (some ['*', '.', 'o', 'r', 'g']) 0x40 (some ['*']) 2]
    AnswersBest globMatch (Table.run (fun _ => ⟨0x40, 0, 0⟩) ops)
      ⟨some ['i', 'r', 'c', '.', 'o', 'r', 'g'], some 0x0A010203, 0x40, afInet, some ['u']⟩ :=
  lookup_complete globMatch_exact _ _ (by decide +kernel) (by decide) _

/-- A ban on 16.0.0.0/4 is not found for 17.0.0.2: it is stored under the hash of 16.0.0.0,
and no prefix of the address that is looked for has that hash. -/
theorem short_prefix_missed :
    let ops := [Op.add (some ['1', '6', '.', '0', '.', '0', '.', '0', '/', '4']) 0x40 (some ['*']) 1]
    ¬ AnswersBest globMatch (Table.run (fun _ => ⟨0x40, 0, 0⟩) ops)
      ⟨none, some 0x11000002, 0x40, afInet, some ['u']⟩ := by
  intro ops answers
  have nothing : findConfByAddress globMatch (Table.run (fun _ => ⟨0x40, 0, 0⟩) ops)
      ⟨none, some 0x11000002, 0x40, afInet, some ['u']⟩ = none := by decide +kernel
  unfold AnswersBest at answers
  rw [nothing] at answers
  refine answers ⟨.ipv4 0x10000000 4, 0x40, 0xFFFFFFFF, some ['*'], 1⟩ ⟨16, ?_⟩ ⟨rfl, ?_, ?_⟩
  · decide +kernel
  · exact Or.inr ⟨['*'], rfl, by decide +kernel⟩
  · exact ⟨0x11000002, rfl, rfl, by decide +kernel⟩

end Ircd.Hostmask
