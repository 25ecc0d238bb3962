import Ircd.Lib.DoublyLinked
import Ircd.Channel.State
import Mathlib.Data.List.TakeWhile

/-!
# Reserved names

`resv.c`, and the hash table of reserved channels in `hash.c`. The walk in `del_from_resv_hash_table` has a pointer
for the entry before, which it never sets.
-/
namespace Ircd.Resv

open Chan (channelLen nickLen)

def topicLen : ℕ := 120

/-- `struct ResvChannel` without its links. `name` is the name that was reserved. `name[CHANNELLEN]` has no room for
the end of a name of that length, and the pointer `reason` follows it: `behind` is what is read there up to the next
zero byte. -/
structure Item where
  name : List Char
  behind : List Char
  reason : List Char
  conf : Bool

/-- The field `name` as a string. -/
def Item.text (item : Item) : List Char :=
  if channelLen ≤ item.name.length then item.name ++ item.behind else item.name

/-- `struct ResvNick`. -/
structure NickItem where
  name : List Char
  reason : List Char
  conf : Bool

/-- `ResvChannelList` with the links `next` and `prev`, `resvTable` with the link `hnext`, `ResvNickList`, and the
block that the next reservation is put in. -/
structure State where
  item : ℕ → Item
  list : LinkTable ℕ Unit
  table : ChainTable ℕ
  nicks : List NickItem
  nextItem : ℕ

def State.start : State where
  item := fun _ => ⟨[], [], [], false⟩
  list := ⟨fun _ => none, fun _ => none, fun _ => none⟩
  table := ⟨fun _ => none, fun _ => none⟩
  nicks := []
  nextItem := 0

/-- `hash_resv_channel`: at most 29 characters, in 32 bits. -/
def hashResvChannel (name : List Char) : ℕ :=
  (name.take 29).foldl (fun h c => (15 * h + (2 ^ 32 - (toLower c).toNat)) % 2 ^ 32) 0 % 1024

/-- `hash_find_resv`. A chain has no more entries than were ever made. -/
def State.hashFindResv (s : State) (name : List Char) : Option ℕ :=
  (s.table.find s.nextItem (hashResvChannel name) fun i => decide (IrcEq name (s.item i).text)).join

/-- `del_from_resv_hash_table`. Nothing is before any entry. -/
def State.delFromResvHashTable (s : State) (name : List Char) (i : ℕ) : State :=
  let hashv := hashResvChannel name
  match (s.table.find s.nextItem hashv fun found => decide (found = i)).join with
  | none => s
  | some found =>
    { s with table :=
        { heads := Function.update s.table.heads hashv (s.table.next found)
          next := Function.update s.table.next found none } }

def State.createChannelResv (s : State) (name reason : List Char) (conf : Bool) (behind : List Char) : State :=
  let name := name.take channelLen
  if (s.hashFindResv name).isSome then s
  else
    let item : Item := ⟨name, behind, reason.take topicLen, conf⟩
    { s with
      item := Function.update s.item s.nextItem item
      list := s.list.push () s.nextItem
      table := s.table.add (hashResvChannel item.text) s.nextItem
      nextItem := s.nextItem + 1 }

def State.deleteChannelResv (s : State) (i : ℕ) : State :=
  let s' := s.delFromResvHashTable (s.item i).text i
  { s' with list := s'.list.unlink () i }

/-- The loop of `clear_conf_resv` over the channels. -/
def clearFrom : ℕ → Option ℕ → State → State
  | 0, _, s => s
  | _ + 1, none, s => s
  | n + 1, some i, s => clearFrom n (s.list.next i) (if (s.item i).conf then s.deleteChannelResv i else s)

def State.clearConfResv (s : State) : State :=
  let s' := clearFrom s.nextItem (s.list.heads ()) s
  { s' with nicks := s'.nicks.filter (fun nick => !nick.conf) }

/-- The reservations on `ResvChannelList`, the newest first. -/
def State.live (s : State) : List ℕ := follow s.list.next s.nextItem (s.list.heads ())

/-- The reservations in a chain of `resvTable`. -/
def State.chain (s : State) (hashv : ℕ) : List ℕ := follow s.table.next s.nextItem (s.table.heads hashv)

section

variable (wildMatch : List Char → List Char → Bool)

/-- `create_nick_resv`, where `find_nick_resv` compares with `match`. -/
def State.createNickResv (s : State) (name reason : List Char) (conf : Bool) : State :=
  let name := name.take nickLen
  if s.nicks.any (fun nick => wildMatch nick.name name) then s
  else { s with nicks := ⟨name, reason.take topicLen, conf⟩ :: s.nicks }

/-- The reservation that `return_nick_resv` finds is deleted. -/
def State.deleteNickResv (s : State) (name : List Char) : State :=
  { s with nicks := s.nicks.eraseP fun nick => decide (IrcEq nick.name name) }

inductive Op where
  | createChannel (name reason : List Char) (conf : Bool) (behind : List Char)
  | createNick (name reason : List Char) (conf : Bool)
  | deleteChannel (i : ℕ)
  | deleteNick (name : List Char)
  | clear

def State.step (s : State) : Op → State
  | .createChannel name reason conf behind => s.createChannelResv name reason conf behind
  | .createNick name reason conf => s.createNickResv wildMatch name reason conf
  | .deleteChannel i => if i ∈ s.live then s.deleteChannelResv i else s
  | .deleteNick name => s.deleteNickResv name
  | .clear => s.clearConfResv

def State.run (ops : List Op) : State := ops.foldl (State.step wildMatch) State.start

end

/-! ### Chains that are cut -/

/-- What deleting an entry leaves of its chain: everything up to the entry is lost. -/
def cut (i : ℕ) (l : List ℕ) : List ℕ := if i ∈ l then (l.dropWhile (fun j => j ≠ i)).tail else l

theorem cut_append {front rest : List ℕ} {i : ℕ} (absent : i ∉ front) : cut i (front ++ i :: rest) = rest := by
  have skip : front.dropWhile (fun j => decide (j ≠ i)) = [] := by
    rw [List.dropWhile_eq_nil_iff]
    intro j member
    simp only [ne_eq, decide_eq_true_eq]
    rintro rfl
    exact absent member
  rw [cut, if_pos (by simp), List.dropWhile_append, skip]
  simp

theorem cut_cons (i : ℕ) (rest : List ℕ) : cut i (i :: rest) = rest := by
  simp [cut]

theorem cut_of_not_mem {l : List ℕ} {i : ℕ} (absent : i ∉ l) : cut i l = l := if_neg absent

theorem cut_suffix (i : ℕ) (l : List ℕ) : cut i l <:+ l := by
  unfold cut
  split
  · exact (List.tail_suffix _).trans (List.dropWhile_suffix _)
  · exact List.suffix_rfl

/-- An entry is cut off together with everything before it. -/
theorem cut_suffix_of {front rest l : List ℕ} {i : ℕ} (nodup : (front ++ i :: rest).Nodup)
    (suffix : l <:+ front ++ i :: rest) : cut i l <:+ rest := by
  have own : i :: rest <:+ front ++ i :: rest := List.suffix_append _ _
  have notRest : i ∉ rest := (List.nodup_cons.mp (List.nodup_append.mp nodup).2.1).1
  by_cases member : i ∈ l
  · obtain ⟨front', rest', rfl, absent⟩ := List.eq_append_cons_of_mem member
    rw [cut_append absent]
    have other : i :: rest' <:+ front ++ i :: rest := (List.suffix_append _ _).trans suffix
    rcases List.suffix_or_suffix_of_suffix other own with shorter | longer
    · rcases List.suffix_cons_iff.mp shorter with equal | inside
      · rw [(List.cons.inj equal).2]
      · exact absurd (inside.mem List.mem_cons_self) notRest
    · rcases List.suffix_cons_iff.mp longer with equal | inside
      · rw [(List.cons.inj equal).2]
      · -- the rest of the part has the entry again
        have twice : (i :: rest').Nodup := nodup.sublist other.sublist
        exact absurd (inside.mem List.mem_cons_self) (List.nodup_cons.mp twice).1
  · rw [cut_of_not_mem member]
    rcases List.suffix_or_suffix_of_suffix suffix own with shorter | longer
    · rcases List.suffix_cons_iff.mp shorter with rfl | inside
      · exact absurd List.mem_cons_self member
      · exact inside
    · exact absurd (longer.mem List.mem_cons_self) member

/-- Entries are cut off one after another. -/
def cutAll (entries l : List ℕ) : List ℕ := entries.foldl (fun l i => cut i l) l

theorem cutAll_suffix (entries l : List ℕ) : cutAll entries l <:+ l := by
  induction entries generalizing l with
  | nil => exact List.suffix_rfl
  | cons i entries ih => exact (ih (cut i l)).trans (cut_suffix i l)

theorem cutAll_suffix_of {front rest l entries : List ℕ} {i : ℕ} (nodup : (front ++ i :: rest).Nodup)
    (suffix : l <:+ front ++ i :: rest) (member : i ∈ entries) : cutAll entries l <:+ rest := by
  induction entries generalizing l with
  | nil => cases member
  | cons j entries ih =>
    rcases List.mem_cons.mp member with rfl | member
    · exact (cutAll_suffix entries _).trans (cut_suffix_of nodup suffix)
    · exact ih ((cut_suffix j l).trans suffix) member

/-- The first entries are cut off in their order, and nothing else. -/
theorem cutAll_append (front rest : List ℕ) (nodup : (front ++ rest).Nodup) : cutAll front (front ++ rest) = rest := by
  induction front with
  | nil => rfl
  | cons i front ih =>
    rw [List.cons_append, cutAll, List.foldl_cons, cut_cons]
    exact ih (List.nodup_cons.mp nodup).2

/-- The list of the reservations and the chains of the table. -/
structure Chained (s : State) (l : List ℕ) (chains : ℕ → List ℕ) : Prop where
  list : s.list.Holds fun _ => l
  chain : ∀ h, IsChain s.table.next (s.table.heads h) (chains h)
  nodup : ∀ h, (chains h).Nodup
  key : ∀ {h i}, i ∈ chains h → hashResvChannel (s.item i).text = h
  old : ∀ {i}, i ∈ l → i < s.nextItem
  inside : ∀ {h i}, i ∈ chains h → i ∈ l

section

variable {s : State} {l : List ℕ} {chains : ℕ → List ℕ}

theorem length_le_of_lt {n : ℕ} {l : List ℕ} (nodup : l.Nodup) (below : ∀ i ∈ l, i < n) : l.length ≤ n := by
  have sub : l ⊆ List.range n := fun i member => List.mem_range.mpr (below i member)
  have := (nodup.subperm sub).length_le
  simpa using this

theorem Chained.length_le (chained : Chained s l chains) : l.length ≤ s.nextItem :=
  length_le_of_lt (chained.list.nodup ()) fun _ => chained.old

theorem Chained.chain_length_le (chained : Chained s l chains) (h : ℕ) : (chains h).length ≤ s.nextItem :=
  length_le_of_lt (chained.nodup h) fun _ member => chained.old (chained.inside member)

theorem Chained.live_eq (chained : Chained s l chains) : s.live = l :=
  (chained.list.linked ()).follow_eq chained.length_le

theorem IsChain.follow_eq {next : ℕ → Option ℕ} {l : List ℕ} {head : Option ℕ} (chain : IsChain next head l) {n : ℕ}
    (long : l.length ≤ n) : follow next n head = l := by
  induction l generalizing head n with
  | nil =>
    obtain rfl : head = none := chain
    cases n <;> rfl
  | cons a l ih =>
    obtain ⟨rfl, rest⟩ := chain
    obtain ⟨n, rfl⟩ : ∃ m, n = m + 1 := ⟨n - 1, by simp at long; omega⟩
    rw [follow, ih rest (by simpa using long)]

theorem Chained.chain_eq (chained : Chained s l chains) (h : ℕ) : s.chain h = chains h :=
  IsChain.follow_eq (chained.chain h) (chained.chain_length_le h)

/-- Behind an entry, a chain goes on as the rest of the list. -/
theorem IsChain.behind {next : ℕ → Option ℕ} {front rest : List ℕ} {a : ℕ} {head : Option ℕ}
    (chain : IsChain next head (front ++ a :: rest)) : IsChain next (next a) rest := by
  induction front generalizing head with
  | nil => exact chain.2
  | cons b front ih => exact ih chain.2

/-- Deleting a reservation cuts its chain. -/
theorem Chained.delete (chained : Chained s l chains) {i : ℕ} (listed : i ∈ l) :
    Chained (s.deleteChannelResv i) (l.erase i) fun h =>
      if hashResvChannel (s.item i).text = h then cut i (chains h) else chains h := by
  have found := findFrom_eq (fun found => decide (found = i)) (chained.chain (hashResvChannel (s.item i).text))
    (chained.chain_length_le _)
  have unlinked := chained.list.unlink (k := ()) listed
  have single : Function.update (fun _ : Unit => l) () (l.erase i) = fun _ => l.erase i := by
    funext u
    exact Function.update_self ..
  rw [single] at unlinked
  by_cases member : i ∈ chains (hashResvChannel (s.item i).text)
  · -- the reservation is on its chain, which is cut at it
    have isFound : (chains (hashResvChannel (s.item i).text)).find? (fun found => decide (found = i)) = some i := by
      cases first : (chains (hashResvChannel (s.item i).text)).find? (fun found => decide (found = i)) with
      | none => simpa using List.find?_eq_none.mp first i member
      | some j => simpa using List.find?_some first
    rw [isFound] at found
    have step : s.deleteChannelResv i =
        { s with
          list := s.list.unlink () i
          table := { heads := Function.update s.table.heads (hashResvChannel (s.item i).text) (s.table.next i)
                     next := Function.update s.table.next i none } } := by
      simp only [State.deleteChannelResv, State.delFromResvHashTable, ChainTable.find, found, Option.join_some]
    obtain ⟨front, rest, split⟩ := List.append_of_mem member
    have nodup := chained.nodup (hashResvChannel (s.item i).text)
    rw [split] at nodup
    have notFront : i ∉ front := fun inFront => (List.nodup_append.mp nodup).2.2 i inFront i List.mem_cons_self rfl
    have notRest : i ∉ rest := (List.nodup_cons.mp (List.nodup_append.mp nodup).2.1).1
    have isCut : cut i (chains (hashResvChannel (s.item i).text)) = rest := by rw [split, cut_append notFront]
    have sub : ∀ h j, j ∈ (if hashResvChannel (s.item i).text = h then cut i (chains h) else chains h) →
        j ∈ chains h ∧ j ≠ i := by
      intro h j inside
      split at inside
      · next here =>
        subst here
        refine ⟨(cut_suffix _ _).mem inside, ?_⟩
        rintro rfl
        rw [isCut] at inside
        exact notRest inside
      · next other =>
        refine ⟨inside, ?_⟩
        rintro rfl
        exact other (chained.key inside)
    rw [step]
    constructor
    · exact unlinked
    · intro h
      dsimp only
      by_cases here : hashResvChannel (s.item i).text = h
      · subst here
        rw [if_pos rfl, Function.update_self, isCut]
        have chain := chained.chain (hashResvChannel (s.item i).text)
        rw [split] at chain
        exact (IsChain.behind chain).congr fun j inside =>
          Function.update_of_ne (ne_of_mem_of_not_mem inside notRest) _ _
      · rw [if_neg here, Function.update_of_ne (Ne.symm here)]
        refine (chained.chain h).congr fun j inside => Function.update_of_ne ?_ _ _
        rintro rfl
        exact here (chained.key inside)
    · intro h
      split
      · exact (chained.nodup h).sublist (cut_suffix _ _).sublist
      · exact chained.nodup h
    · exact fun inside => chained.key (sub _ _ inside).1
    · exact fun inside => chained.old (List.mem_of_mem_erase inside)
    · intro h j inside
      obtain ⟨inChain, other⟩ := sub h j inside
      exact (List.mem_erase_of_ne other).mpr (chained.inside inChain)
  · -- it is not on its chain any more, and only the list changes
    have isFound : (chains (hashResvChannel (s.item i).text)).find? (fun found => decide (found = i)) = none := by
      rw [List.find?_eq_none]
      intro j inside
      simp only [decide_eq_true_eq]
      rintro rfl
      exact member inside
    rw [isFound] at found
    have step : s.deleteChannelResv i = { s with list := s.list.unlink () i } := by
      simp only [State.deleteChannelResv, State.delFromResvHashTable, ChainTable.find, found, Option.join_some]
    have same : (fun h => if hashResvChannel (s.item i).text = h then cut i (chains h) else chains h) = chains := by
      funext h
      split
      · next here => exact cut_of_not_mem (here ▸ member)
      · rfl
    rw [step, same]
    refine ⟨unlinked, chained.chain, chained.nodup, chained.key, ?_, ?_⟩
    · exact fun inside => chained.old (List.mem_of_mem_erase inside)
    · intro h j inside
      have other : j ≠ i := by
        rintro rfl
        have := chained.key inside
        exact member (this ▸ inside)
      exact (List.mem_erase_of_ne other).mpr (chained.inside inside)

theorem State.deleteChannelResv_item (s : State) (i : ℕ) : (s.deleteChannelResv i).item = s.item := by
  simp only [State.deleteChannelResv, State.delFromResvHashTable]
  split <;> rfl

/-- The loop of `clear_conf_resv` cuts the chains at every item of the configuration, in the order of the list. -/
theorem Chained.clearFrom {todo : List ℕ} {n : ℕ} {done : List ℕ} (chained : Chained s (done ++ todo) chains)
    (long : todo.length ≤ n) :
    let s' := clearFrom n todo.head? s
    s'.item = s.item ∧ Chained s' (done ++ todo.filter fun i => !(s.item i).conf) fun h =>
      cutAll (todo.filter fun i => (s.item i).conf && decide (hashResvChannel (s.item i).text = h)) (chains h) := by
  induction todo generalizing n done s chains with
  | nil =>
    have stop : Resv.clearFrom n none s = s := by cases n <;> rfl
    simp only [List.head?_nil, stop]
    exact ⟨trivial, chained⟩
  | cons i todo ih =>
    obtain ⟨n, rfl⟩ : ∃ m, n = m + 1 := ⟨n - 1, by simp at long; omega⟩
    have next : s.list.next i = todo.head? := (chained.list.linked ()).next_eq
    have notDone : i ∉ done := fun inDone =>
      (List.nodup_append.mp (chained.list.nodup ())).2.2 i inDone i List.mem_cons_self rfl
    rw [List.length_cons] at long
    rw [List.head?_cons, Resv.clearFrom, next]
    cases conf : (s.item i).conf with
    | true =>
      have deleted := chained.delete (i := i) (by simp)
      rw [List.erase_append_right _ notDone, List.erase_cons_head] at deleted
      obtain ⟨item, after⟩ := ih (n := n) deleted (by omega)
      rw [State.deleteChannelResv_item] at item after
      refine ⟨by simpa using item, ?_⟩
      simp only [if_true, List.filter_cons, conf, Bool.not_true, Bool.false_eq_true, if_false, Bool.true_and,
        decide_eq_true_eq] at after ⊢
      convert after using 1
      funext h
      split
      · rfl
      · rfl
    | false =>
      have moved : Chained s ((done ++ [i]) ++ todo) chains := by simpa using chained
      obtain ⟨item, after⟩ := ih (n := n) moved (by omega)
      refine ⟨by simpa using item, ?_⟩
      simpa [List.filter_cons, conf] using after

end

end Ircd.Resv
