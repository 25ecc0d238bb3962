import Ircd.Resv.Table
import Mathlib.Data.List.Induction

/-!
# Reserved while reserved

The list of reservations and the chains of the hash table have the same items, and a name is found while it is
reserved, as long as every reservation that is deleted is the first of its chain.
-/
namespace Ircd.Resv

open Chan (channelLen)

/-- The chain of the table in which a reservation belongs. -/
def State.bucket (s : State) (i : ℕ) : ℕ := hashResvChannel (s.item i).name

/-- The list and the chains have the same items, and a reserved name is found, and only then. -/
structure Kept (s : State) : Prop where
  same : ∀ h i, i ∈ s.chain h ↔ i ∈ s.live ∧ s.bucket i = h
  once : s.live.Nodup ∧ ∀ h, (s.chain h).Nodup
  found : ∀ name i, s.hashFindResv name = some i → i ∈ s.live ∧ IrcEq name (s.item i).name
  missing : ∀ name, s.hashFindResv name = none → ∀ i ∈ s.live, ¬IrcEq name (s.item i).name
  unique : ∀ i ∈ s.live, ∀ j ∈ s.live, IrcEq (s.item i).name (s.item j).name → i = j

/-- The items of a list that belong in a chain. -/
def State.ofBucket (s : State) (l : List ℕ) (h : ℕ) : List ℕ := l.filter fun i => decide (s.bucket i = h)

/-- The chains are the parts of the list, in its order, and every name is stored as it was given. -/
structure Ordered (s : State) (l : List ℕ) : Prop where
  chained : Chained s l (s.ofBucket l)
  text : ∀ i ∈ l, (s.item i).text = (s.item i).name
  unique : ∀ i ∈ l, ∀ j ∈ l, IrcEq (s.item i).name (s.item j).name → i = j

theorem hashResvChannel_congr {name other : List Char} (equal : IrcEq name other) :
    hashResvChannel name = hashResvChannel other := by
  have folded : ∀ text : List Char, hashResvChannel text = ((text.map toLower).take 29).foldl
      (fun h c => (15 * h + (2 ^ 32 - c.toNat)) % 2 ^ 32) 0 % 1024 := by
    intro text
    rw [← List.map_take, List.foldl_map]
    rfl
  rw [folded, folded, equal.map_toLower]

/-- What is read behind a long name does not matter to the hash. -/
theorem hashResvChannel_text (item : Item) : hashResvChannel item.text = hashResvChannel item.name := by
  unfold Item.text
  split
  · next long =>
    unfold hashResvChannel
    rw [List.take_append_of_le_length (Nat.le_trans (by decide) long)]
  · rfl

section

variable {s : State} {l : List ℕ}

theorem Ordered.hashFindResv (ordered : Ordered s l) (name : List Char) :
    s.hashFindResv name = (s.ofBucket l (hashResvChannel name)).find? fun i => decide (IrcEq name (s.item i).text) := by
  have found := findFrom_eq (fun i => decide (IrcEq name (s.item i).text))
    (ordered.chained.chain (hashResvChannel name)) (ordered.chained.chain_length_le _)
  rw [State.hashFindResv, ChainTable.find, found, Option.join_some]

theorem Ordered.kept (ordered : Ordered s l) : Kept s := by
  have live := ordered.chained.live_eq
  constructor
  · intro h i
    rw [ordered.chained.chain_eq, live]
    simp [State.ofBucket]
  · rw [live]
    refine ⟨ordered.chained.list.nodup (), fun h => ?_⟩
    rw [ordered.chained.chain_eq]
    exact ordered.chained.nodup h
  · intro name i found
    rw [ordered.hashFindResv] at found
    have listed : i ∈ l := List.mem_of_mem_filter (List.mem_of_find?_eq_some found)
    have equal := List.find?_some found
    rw [ordered.text i listed, decide_eq_true_eq] at equal
    exact ⟨live ▸ listed, equal⟩
  · intro name missing i member equal
    rw [live] at member
    rw [ordered.hashFindResv] at missing
    have inBucket : i ∈ s.ofBucket l (hashResvChannel name) := by
      simp only [State.ofBucket, List.mem_filter, decide_eq_true_eq]
      exact ⟨member, (hashResvChannel_congr equal).symm⟩
    have differs := List.find?_eq_none.mp missing i inBucket
    rw [ordered.text i member, decide_eq_true_eq] at differs
    exact differs equal
  · rw [live]
    exact ordered.unique

/-! ### Creating -/

/-- The name, where it is cut, is new: it is shorter than the field, or what follows the field ends it. -/
def Fits (s : State) (name behind : List Char) : Prop :=
  (∀ i ∈ s.live, ¬IrcEq (name.take channelLen) (s.item i).name) → name.length < channelLen ∨ behind = []

theorem Ordered.find_isSome_iff (ordered : Ordered s l) (name : List Char) :
    (s.hashFindResv name).isSome ↔ ∃ i ∈ s.live, IrcEq name (s.item i).name := by
  constructor
  · intro isSome
    obtain ⟨i, found⟩ := Option.isSome_iff_exists.mp isSome
    exact ⟨i, ordered.kept.found name i found⟩
  · rintro ⟨i, member, equal⟩
    by_contra none
    rw [Option.not_isSome_iff_eq_none] at none
    exact ordered.kept.missing name none i member equal

/-- A new reservation is put in front of the list and of its chain. -/
theorem Ordered.create (ordered : Ordered s l) {name : List Char} (reason : List Char) (conf : Bool)
    (behind : List Char) (new : (s.hashFindResv (name.take channelLen)).isSome = false) :
    let s' := s.createChannelResv name reason conf behind
    s'.item = Function.update s.item s.nextItem ⟨name.take channelLen, behind, reason.take topicLen, conf⟩ ∧
      Chained s' (s.nextItem :: l) (s'.ofBucket (s.nextItem :: l)) := by
  have fresh : s.nextItem ∉ l := fun member => absurd (ordered.chained.old member) (Nat.lt_irrefl _)
  have step : s.createChannelResv name reason conf behind =
      { s with
        item := Function.update s.item s.nextItem ⟨name.take channelLen, behind, reason.take topicLen, conf⟩
        list := s.list.push () s.nextItem
        table := s.table.add (hashResvChannel (name.take channelLen)) s.nextItem
        nextItem := s.nextItem + 1 } := by
    simp only [State.createChannelResv, new, Bool.false_eq_true, if_false, hashResvChannel_text]
  rw [step]
  refine ⟨rfl, ?_⟩
  generalize s'_eq : { s with
    item := Function.update s.item s.nextItem ⟨name.take channelLen, behind, reason.take topicLen, conf⟩
    list := s.list.push () s.nextItem
    table := s.table.add (hashResvChannel (name.take channelLen)) s.nextItem
    nextItem := s.nextItem + 1 } = s'
  -- only the new item is written to
  have others : ∀ i ∈ l, s'.item i = s.item i := by
    intro i member
    rw [← s'_eq]
    exact Function.update_of_ne (ne_of_mem_of_not_mem member fresh) _ _
  have own : s'.bucket s.nextItem = hashResvChannel (name.take channelLen) := by
    rw [← s'_eq]
    simp [State.bucket]
  have rest : ∀ h, s'.ofBucket l h = s.ofBucket l h := by
    intro h
    apply List.filter_congr
    intro i member
    rw [State.bucket, others i member]
    rfl
  have split : ∀ h, s'.ofBucket (s.nextItem :: l) h =
      if hashResvChannel (name.take channelLen) = h then s.nextItem :: s.ofBucket l h else s.ofBucket l h := by
    intro h
    rw [← rest h, State.ofBucket, List.filter_cons, own]
    simp [State.ofBucket]
  constructor
  · have pushed := ordered.chained.list.push () (a := s.nextItem) fun _ => fresh
    have single : Function.update (fun _ : Unit => l) () (s.nextItem :: l) = fun _ => s.nextItem :: l := by
      funext u
      exact Function.update_self ..
    rw [single] at pushed
    rw [← s'_eq]
    exact pushed
  · intro h
    have table : s'.table = s.table.add (hashResvChannel (name.take channelLen)) s.nextItem := by rw [← s'_eq]
    have kept : IsChain (s.table.add (hashResvChannel (name.take channelLen)) s.nextItem).next (s.table.heads h)
        (s.ofBucket l h) := (ordered.chained.chain h).congr fun i member =>
      Function.update_of_ne (ne_of_mem_of_not_mem (ordered.chained.inside member) fresh) _ _
    rw [table, split]
    by_cases here : hashResvChannel (name.take channelLen) = h
    · subst here
      rw [if_pos rfl]
      refine ⟨Function.update_self .., ?_⟩
      rw [show (s.table.add (hashResvChannel (name.take channelLen)) s.nextItem).next s.nextItem =
        s.table.heads (hashResvChannel (name.take channelLen)) from Function.update_self ..]
      exact kept
    · rw [if_neg here, show (s.table.add (hashResvChannel (name.take channelLen)) s.nextItem).heads h =
        s.table.heads h from Function.update_of_ne (Ne.symm here) _ _]
      exact kept
  · -- its chain has one more in front
    intro h
    rw [split]
    split
    · exact List.nodup_cons.mpr ⟨fun member => fresh (ordered.chained.inside member), ordered.chained.nodup h⟩
    · exact ordered.chained.nodup h
  · intro h i member
    simp only [State.ofBucket, List.mem_filter, decide_eq_true_eq] at member
    rw [hashResvChannel_text]
    exact member.2
  · intro i member
    have next : s'.nextItem = s.nextItem + 1 := by rw [← s'_eq]
    rw [next]
    rcases List.mem_cons.mp member with rfl | member
    · exact Nat.lt_succ_self _
    · exact Nat.lt_succ_of_lt (ordered.chained.old member)
  · exact fun member => List.mem_of_mem_filter member

theorem Ordered.create_iff (ordered : Ordered s l) (name reason : List Char) (conf : Bool) (behind : List Char) :
    (Fits s name behind → ∃ l', Ordered (s.createChannelResv name reason conf behind) l') ∧
      (Kept (s.createChannelResv name reason conf behind) → Fits s name behind) := by
  by_cases isSome : (s.hashFindResv (name.take channelLen)).isSome
  · -- the name is reserved already
    have same : s.createChannelResv name reason conf behind = s := by
      simp only [State.createChannelResv, isSome, if_true]
    obtain ⟨i, member, equal⟩ := (ordered.find_isSome_iff _).mp isSome
    rw [same]
    exact ⟨fun _ => ⟨l, ordered⟩, fun _ new => absurd equal (new i member)⟩
  · have new : ∀ i ∈ s.live, ¬IrcEq (name.take channelLen) (s.item i).name := fun i member equal =>
      isSome ((ordered.find_isSome_iff _).mpr ⟨i, member, equal⟩)
    obtain ⟨item, chained⟩ := ordered.create reason conf behind (Bool.eq_false_iff.mpr isSome)
    have live := ordered.chained.live_eq
    have others : ∀ i ∈ l, (s.createChannelResv name reason conf behind).item i = s.item i := fun i member => by
      rw [item]
      exact Function.update_of_ne (ne_of_mem_of_not_mem member fun inside =>
        absurd (ordered.chained.old inside) (Nat.lt_irrefl _)) _ _
    have own : (s.createChannelResv name reason conf behind).item s.nextItem =
        ⟨name.take channelLen, behind, reason.take topicLen, conf⟩ := by
      rw [item]
      exact Function.update_self ..
    constructor
    · intro fits
      refine ⟨s.nextItem :: l, chained, ?_, ?_⟩
      · intro i member
        rcases List.mem_cons.mp member with rfl | member
        · rw [own, Item.text]
          split
          · next long =>
            rcases fits new with short | rfl
            · simp only [List.length_take] at long
              omega
            · exact List.append_nil _
          · rfl
        · rw [others i member]
          exact ordered.text i member
      · intro i member j member' equal
        rcases List.mem_cons.mp member with rfl | member <;> rcases List.mem_cons.mp member' with rfl | member'
        · rfl
        · rw [own, others j member'] at equal
          exact absurd equal (new j (live ▸ member'))
        · rw [own, others i member] at equal
          exact absurd equal.symm (new i (live ▸ member))
        · rw [others i member, others j member'] at equal
          exact ordered.unique i member j member' equal
    · -- a name that is not ended is not found again
      intro kept _
      by_contra broken
      rw [not_or] at broken
      obtain ⟨long, notEnded⟩ := broken
      have listed : s.nextItem ∈ (s.createChannelResv name reason conf behind).live := by
        rw [chained.live_eq]
        exact List.mem_cons_self
      have text : ((s.createChannelResv name reason conf behind).item s.nextItem).text =
          name.take channelLen ++ behind := by
        rw [own, Item.text, if_pos]
        simp only [List.length_take]
        omega
      cases found : (s.createChannelResv name reason conf behind).hashFindResv (name.take channelLen) with
      | none =>
        apply kept.missing _ found _ listed
        rw [own]
        exact IrcEq.refl _
      | some i =>
        obtain ⟨member, equal⟩ := kept.found _ _ found
        have isNew : i = s.nextItem := kept.unique i member _ listed (by rw [own]; exact equal.symm)
        subst isNew
        have read := findFrom_eq (fun i => decide (IrcEq (name.take channelLen)
            ((s.createChannelResv name reason conf behind).item i).text))
          (chained.chain (hashResvChannel (name.take channelLen))) (chained.chain_length_le _)
        rw [State.hashFindResv, ChainTable.find, read, Option.join_some] at found
        have same := List.find?_some found
        rw [text, decide_eq_true_eq] at same
        have lengths := congrArg List.length same
        simp only [List.length_map, List.length_append] at lengths
        exact notEnded (List.eq_nil_of_length_eq_zero (by omega))

/-! ### Deleting -/

/-- Nothing that is live is before the reservation in its chain. -/
def IsFirst (s : State) (i : ℕ) : Prop := (s.ofBucket s.live (s.bucket i)).head? = some i

theorem State.ofBucket_congr {s s' : State} (same : s'.item = s.item) (l : List ℕ) (h : ℕ) :
    s'.ofBucket l h = s.ofBucket l h := by
  unfold State.ofBucket State.bucket
  rw [same]

theorem Ordered.delete_iff (ordered : Ordered s l) {i : ℕ} (listed : i ∈ s.live) :
    (IsFirst s i → Ordered (s.deleteChannelResv i) (l.erase i)) ∧
      (Kept (s.deleteChannelResv i) → IsFirst s i) := by
  have live := ordered.chained.live_eq
  rw [live] at listed
  have deleted := ordered.chained.delete listed
  have item := State.deleteChannelResv_item s i
  have text : hashResvChannel (s.item i).text = s.bucket i := hashResvChannel_text _
  rw [text] at deleted
  have inBucket : i ∈ s.ofBucket l (s.bucket i) := by
    simp [State.ofBucket, listed]
  constructor
  · intro first
    rw [IsFirst, live] at first
    obtain ⟨rest, split⟩ : ∃ rest, s.ofBucket l (s.bucket i) = i :: rest := List.head?_eq_some_iff.mp first
    have chains : (fun h => if s.bucket i = h then cut i (s.ofBucket l h) else s.ofBucket l h) =
        (s.deleteChannelResv i).ofBucket (l.erase i) := by
      funext h
      have erased : s.ofBucket (l.erase i) h = (s.ofBucket l h).erase i := (List.erase_filter ..).symm
      rw [State.ofBucket_congr item, erased]
      split
      · next here =>
        rw [← here, split, List.erase_cons_head]
        exact cut_cons i rest
      · next other =>
        rw [List.erase_of_not_mem]
        simp [State.ofBucket, other]
    rw [chains] at deleted
    refine ⟨deleted, ?_, ?_⟩
    · intro j member
      rw [item]
      exact ordered.text j (List.mem_of_mem_erase member)
    · intro j member j' member'
      rw [item]
      exact ordered.unique j (List.mem_of_mem_erase member) j' (List.mem_of_mem_erase member')
  · intro kept
    obtain ⟨front, rest, split, absent⟩ := List.eq_append_cons_of_mem inBucket
    rw [IsFirst, live, split]
    cases front with
    | nil => rfl
    | cons j front =>
      -- `j` is on the list still, and it has been cut off
      exfalso
      have nodup := ordered.chained.nodup (s.bucket i)
      rw [split] at nodup
      have before : j ∈ s.ofBucket l (s.bucket i) := by simp [split]
      obtain ⟨inList, bucket⟩ : j ∈ l ∧ s.bucket j = s.bucket i := by simpa [State.ofBucket] using before
      have other : j ≠ i := by
        rintro rfl
        exact absent List.mem_cons_self
      have stays : j ∈ (s.deleteChannelResv i).chain (s.bucket i) := by
        rw [kept.same]
        rw [deleted.live_eq]
        refine ⟨(List.mem_erase_of_ne other).mpr inList, ?_⟩
        rw [State.bucket, item]
        exact bucket
      rw [deleted.chain_eq, if_pos rfl, split, cut_append absent] at stays
      exact (List.nodup_cons.mp nodup).1 (List.mem_append_right _ (List.mem_cons_of_mem _ stays))

/-! ### Clearing -/

/-- In every chain, the reservations of the configuration are before the others. -/
def ConfFirst (s : State) : Prop :=
  s.live.Pairwise fun i j => s.bucket i = s.bucket j → (s.item j).conf = true → (s.item i).conf = true

theorem filter_append_filter {p : ℕ → Bool} {l : List ℕ} (sorted : l.Pairwise fun i j => p j = true → p i = true) :
    l.filter p ++ l.filter (fun i => !p i) = l := by
  induction l with
  | nil => rfl
  | cons i l ih =>
    obtain ⟨after, rest⟩ := List.pairwise_cons.mp sorted
    cases holds : p i with
    | true => simp [holds, ih rest]
    | false =>
      have others : ∀ j ∈ l, p j = false := fun j member => by
        by_contra isTrue
        rw [Bool.not_eq_false] at isTrue
        rw [after j member isTrue] at holds
        cases holds
      have none : l.filter p = [] := List.filter_eq_nil_iff.mpr fun j member => by simp [others j member]
      have all : l.filter (fun i => !p i) = l := List.filter_eq_self.mpr fun j member => by simp [others j member]
      simp [holds, none, all]

theorem Ordered.clear_iff (ordered : Ordered s l) :
    (ConfFirst s → Ordered s.clearConfResv (l.filter fun i => !(s.item i).conf)) ∧
      (Kept s.clearConfResv → ConfFirst s) := by
  have live := ordered.chained.live_eq
  have head : s.list.heads () = l.head? := (ordered.chained.list.linked ()).head_eq
  have start : Chained s ([] ++ l) (s.ofBucket l) := ordered.chained
  obtain ⟨item, cleared⟩ := start.clearFrom ordered.chained.length_le
  rw [← head, List.nil_append] at cleared
  rw [← head] at item
  have item' : s.clearConfResv.item = s.item := item
  have split : ∀ h, (l.filter fun i => (s.item i).conf && decide (hashResvChannel (s.item i).text = h)) =
      (s.ofBucket l h).filter fun i => (s.item i).conf := by
    intro h
    rw [State.ofBucket, List.filter_filter]
    simp only [hashResvChannel_text]
    rfl
  simp only [split] at cleared
  have chained : Chained s.clearConfResv (l.filter fun i => !(s.item i).conf) fun h =>
      cutAll ((s.ofBucket l h).filter fun i => (s.item i).conf) (s.ofBucket l h) :=
    ⟨cleared.list, cleared.chain, cleared.nodup, cleared.key, cleared.old, cleared.inside⟩
  constructor
  · intro confFirst
    rw [ConfFirst, live] at confFirst
    have chains : (fun h => cutAll ((s.ofBucket l h).filter fun i => (s.item i).conf) (s.ofBucket l h)) =
        s.clearConfResv.ofBucket (l.filter fun i => !(s.item i).conf) := by
      funext h
      have sorted : (s.ofBucket l h).Pairwise fun i j => (s.item j).conf = true → (s.item i).conf = true := by
        rw [State.ofBucket, List.pairwise_filter]
        refine confFirst.imp fun {i j} holds here there => ?_
        rw [decide_eq_true_eq] at here there
        exact holds (here.trans there.symm)
      have whole := filter_append_filter sorted
      have nodup := ordered.chained.nodup h
      rw [State.ofBucket_congr item']
      have tail : (s.ofBucket l h).filter (fun i => !(s.item i).conf) =
          s.ofBucket (l.filter fun i => !(s.item i).conf) h := by
        simp only [State.ofBucket, List.filter_filter, Bool.and_comm]
      rw [← tail]
      rw [← whole] at nodup
      have cutOff := cutAll_append _ _ nodup
      rwa [whole] at cutOff
    rw [chains] at chained
    refine ⟨chained, ?_, ?_⟩
    · intro i member
      rw [item']
      exact ordered.text i (List.mem_of_mem_filter member)
    · intro i member j member'
      rw [item']
      exact ordered.unique i (List.mem_of_mem_filter member) j (List.mem_of_mem_filter member')
  · intro kept
    rw [ConfFirst, live, List.pairwise_iff_forall_sublist]
    intro i j sub bucket conf
    by_contra notConf
    rw [Bool.not_eq_true] at notConf
    -- `i` is on the list still, and it has been cut off with `j`
    have subBucket : [i, j].Sublist (s.ofBucket l (s.bucket j)) := by
      have := sub.filter fun k => decide (s.bucket k = s.bucket j)
      simpa [List.filter_cons, bucket, State.ofBucket] using this
    have inList : i ∈ l := sub.mem (by simp)
    have inBucket : j ∈ s.ofBucket l (s.bucket j) := subBucket.mem (by simp)
    obtain ⟨front, rest, split, absent⟩ := List.eq_append_cons_of_mem inBucket
    have nodup := ordered.chained.nodup (s.bucket j)
    rw [split] at nodup subBucket
    have stays : i ∈ s.clearConfResv.chain (s.bucket j) := by
      rw [kept.same, chained.live_eq]
      refine ⟨List.mem_filter.mpr ⟨inList, by simp [notConf]⟩, ?_⟩
      rw [State.bucket, item']
      exact bucket
    rw [chained.chain_eq, split] at stays
    have inRest : i ∈ rest :=
      (cutAll_suffix_of nodup List.suffix_rfl (List.mem_filter.mpr ⟨by simp, conf⟩)).mem stays
    -- but `i` is before `j`
    obtain ⟨notFront, cons, apart⟩ := List.nodup_append.mp nodup
    have notRest := (List.nodup_cons.mp cons).1
    obtain ⟨first, second, equal, inFront, behind⟩ := List.sublist_append_iff.mp subBucket
    match first, equal, inFront, behind with
    | [], equal, _, behind =>
      rw [List.nil_append] at equal
      subst equal
      cases behind with
      | cons _ inRest' => exact notRest (inRest'.mem (by simp))
      | cons_cons _ inRest' => exact notRest inRest
    | _ :: _, equal, inFront, _ =>
      rw [List.cons_append, List.cons.injEq] at equal
      obtain ⟨rfl, _⟩ := equal
      exact apart i (inFront.mem List.mem_cons_self) i (List.mem_cons_of_mem _ inRest) rfl

end

/-! ### Runs -/

/-- What an operation must meet: a new name fits, a reservation that is deleted is the first of its chain, and a
reservation of the configuration has no other one before it when the configured ones are cleared. -/
def Upheld (s : State) : Op → Prop
  | .createChannel name _ _ behind => Fits s name behind
  | .deleteChannel i => i ∈ s.live → IsFirst s i
  | .clear => ConfFirst s
  | .createNick .. | .deleteNick .. => True

theorem ordered_start : Ordered State.start [] where
  chained := ⟨⟨fun _ => rfl, fun _ => List.nodup_nil, by simp⟩, fun _ => rfl, fun _ => List.nodup_nil,
    by simp [State.ofBucket], by simp, by simp [State.ofBucket]⟩
  text := by simp
  unique := by simp

section

variable (wildMatch : List Char → List Char → Bool)

/-- Reservations of nicks do not touch those of channels. -/
theorem Ordered.nicks {s : State} {l : List ℕ} (ordered : Ordered s l) (nicks : List NickItem) :
    Ordered { s with nicks := nicks } l :=
  ⟨⟨ordered.chained.list, ordered.chained.chain, ordered.chained.nodup, ordered.chained.key, ordered.chained.old,
    ordered.chained.inside⟩, ordered.text, ordered.unique⟩

theorem Ordered.step_iff {s : State} {l : List ℕ} (ordered : Ordered s l) (op : Op) :
    (Upheld s op → ∃ l', Ordered (s.step wildMatch op) l') ∧ (Kept (s.step wildMatch op) → Upheld s op) := by
  cases op with
  | createChannel name reason conf behind => exact ordered.create_iff name reason conf behind
  | createNick name reason conf =>
    refine ⟨fun _ => ⟨l, ?_⟩, fun _ => trivial⟩
    simp only [State.step, State.createNickResv]
    split
    · exact ordered
    · exact ordered.nicks _
  | deleteChannel i =>
    by_cases listed : i ∈ s.live
    · obtain ⟨forward, backward⟩ := ordered.delete_iff listed
      simp only [State.step, if_pos listed, Upheld]
      exact ⟨fun upheld => ⟨_, forward (upheld listed)⟩, fun kept _ => backward kept⟩
    · simp only [State.step, if_neg listed, Upheld]
      exact ⟨fun _ => ⟨l, ordered⟩, fun _ member => absurd member listed⟩
  | deleteNick name => exact ⟨fun _ => ⟨l, ordered.nicks _⟩, fun _ => trivial⟩
  | clear => exact ⟨fun upheld => ⟨_, ordered.clear_iff.1 upheld⟩, ordered.clear_iff.2⟩

theorem run_take_succ {ops : List Op} {k : ℕ} {op : Op} (at_ : ops[k]? = some op) :
    State.run wildMatch (ops.take (k + 1)) = (State.run wildMatch (ops.take k)).step wildMatch op := by
  simp [State.run, List.take_add_one, at_]

/-- In a run, the list and the chains always have the same items and every reserved name is found, exactly when each
reservation that is deleted is the first of its chain and each new name fits into its field. -/
theorem reserved_iff (ops : List Op) :
    (∀ k ≤ ops.length, Kept (State.run wildMatch (ops.take k))) ↔
      ∀ k op, ops[k]? = some op → Upheld (State.run wildMatch (ops.take k)) op := by
  constructor
  · intro kept
    have ordered : ∀ k ≤ ops.length, ∃ l, Ordered (State.run wildMatch (ops.take k)) l := by
      intro k
      induction k with
      | zero => exact fun _ => ⟨[], ordered_start⟩
      | succ k ih =>
        intro within
        obtain ⟨l, before⟩ := ih (by omega)
        have at_ : ops[k]? = some ops[k] := List.getElem?_eq_getElem within
        have after := kept (k + 1) within
        rw [run_take_succ wildMatch at_] at after ⊢
        obtain ⟨forward, backward⟩ := before.step_iff wildMatch ops[k]
        exact forward (backward after)
    intro k op at_
    have inside := (List.getElem?_eq_some_iff.mp at_).1
    obtain ⟨l, before⟩ := ordered k (by omega)
    have after := kept (k + 1) inside
    rw [run_take_succ wildMatch at_] at after
    exact (before.step_iff wildMatch op).2 after
  · intro upheld k
    suffices ordered : k ≤ ops.length → ∃ l, Ordered (State.run wildMatch (ops.take k)) l from fun within =>
      (ordered within).elim fun _ before => before.kept
    induction k with
    | zero => exact fun _ => ⟨[], ordered_start⟩
    | succ k ih =>
      intro within
      obtain ⟨l, before⟩ := ih (by omega)
      have at_ : ops[k]? = some ops[k] := List.getElem?_eq_getElem within
      rw [run_take_succ wildMatch at_]
      exact (before.step_iff wildMatch ops[k]).1 (upheld k _ at_)

end

/-- Two names in one chain: when the older reservation is deleted, the newer one is on the list but not found. -/
theorem reservation_lost :
    let s := State.run (fun _ _ => false)
      [.createChannel "#ap".toList [] false [], .createChannel "#ba".toList [] false [], .deleteChannel 0]
    s.live = [1] ∧ (s.item 1).name = "#ba".toList ∧ s.chain (s.bucket 1) = [] ∧ s.hashFindResv "#ba".toList = none := by
  decide

end Ircd.Resv
