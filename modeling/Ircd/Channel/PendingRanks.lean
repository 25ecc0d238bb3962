import Ircd.Channel.Integrity
import Ircd.Channel.ModeSteps

/-!
# Pending changes of ranks

Which pending changes of a MODE are about one member. They name him by his nick, and a letter of the command may name
him by his nick or his id.
-/
namespace Ircd.Chan

/-! ### Entries of one letter -/

/-- The entries of a letter. -/
def entries (c : Char) (list : List ChModeChange) : List ChModeChange :=
  list.filter fun e => e.letter == c

@[simp] theorem wipe_letter (e : ChModeChange) : e.wipe.letter = '\x00' := rfl

theorem entries_cons (c : Char) (e : ChModeChange) (list : List ChModeChange) :
    entries c (e :: list) = if e.letter = c then e :: entries c list else entries c list := by
  simp [entries, List.filter_cons]

theorem mem_entries {c : Char} {list : List ChModeChange} {e : ChModeChange} :
    e ∈ entries c list ↔ e ∈ list ∧ e.letter = c := by
  simp [entries]

/-- Entries that are cancelled have no letter any more. -/
theorem entries_wipeAll {c : Char} (pending : c ≠ '\x00') (p : ChModeChange → Bool)
    (list : List ChModeChange) :
    entries c (wipeAll p list) = (entries c list).filter fun e => !p e := by
  induction list with
  | nil => rfl
  | cons e list ih =>
    rw [wipeAll] at ih
    rw [wipeAll, List.map_cons, entries_cons, entries_cons, ih]
    cases cancelled : p e with
    | true =>
      rw [if_pos rfl, wipe_letter, if_neg pending.symm]
      split
      · rw [List.filter_cons_of_neg (by simp [cancelled])]
      · rfl
    | false =>
      simp only [Bool.false_eq_true, if_false]
      split
      · rw [List.filter_cons_of_pos (by simp [cancelled])]
      · rfl

/-- The letters that change ranks. -/
def rankLetters : List Char := ['o', 'h', 'v']

/-- A set of the letters that change ranks. -/
structure Letters where
  o : Bool
  h : Bool
  v : Bool
deriving DecidableEq

/-- The letters of a rank. -/
def Rank.letters : Rank → Letters
  | .chanop => ⟨true, false, false⟩
  | .chanopVoiced => ⟨true, false, true⟩
  | .halfop => ⟨false, true, false⟩
  | .voiced => ⟨false, false, true⟩
  | .peon => ⟨false, false, false⟩

theorem mem_rankLetters {c : Char} : c ∈ rankLetters ↔ c = 'o' ∨ c = 'h' ∨ c = 'v' := by
  simp [rankLetters]

/-! ### Ranks -/

/-- The list that a client is on. -/
def Channel.rank (ch : Channel) (who : ClientId) : Option Rank :=
  Lists.find ch.members changeOrder who

theorem isFor_iff {letters nick : List Char} {e : ChModeChange} :
    e.isFor letters nick = true ↔
      e.letter ∈ letters ∧ ∃ arg, e.arg = some arg ∧ IrcEq arg nick := by
  unfold ChModeChange.isFor
  cases e.arg with
  | none => simp
  | some arg => simp

theorem hasPending_iff {list : List ChModeChange} {c : Char} {nick : List Char} :
    hasPending list c nick = true ↔
      ∃ e ∈ list, e.letter = c ∧ ∃ arg, e.arg = some arg ∧ IrcEq arg nick := by
  simp [hasPending, List.any_eq_true, isFor_iff]

theorem hasPending_entries (list : List ChModeChange) (c : Char) (nick : List Char) :
    hasPending list c nick = (entries c list).any fun e => e.isFor [c] nick := by
  rw [Bool.eq_iff_iff, hasPending_iff]
  simp only [List.any_eq_true, mem_entries, isFor_iff, List.mem_singleton]
  constructor
  · rintro ⟨e, member, letter, arg⟩
    exact ⟨e, ⟨member, letter⟩, letter, arg⟩
  · rintro ⟨e, ⟨member, letter⟩, -, arg⟩
    exact ⟨e, member, letter, arg⟩

section OneRank

variable {ch : Channel} (once : (Lists.all ch.members).Nodup)

include once

theorem Channel.rank_iff {u : ClientId} {n : Rank} : ch.rank u = some n ↔ u ∈ ch.members n :=
  ⟨Lists.mem_of_find, Lists.find_eq once mem_changeOrder⟩

theorem Channel.isChanOp_eq {u : ClientId} {n : Rank} (rank : ch.rank u = some n) :
    ch.isChanOp u = n.letters.o := by
  have only : ∀ r, u ∈ ch.members r ↔ n = r := fun r => by
    rw [← Channel.rank_iff once, rank, Option.some_inj]
  simp only [Channel.isChanOp, only]
  cases n <;> rfl

theorem Channel.isHalfOp_eq {u : ClientId} {n : Rank} (rank : ch.rank u = some n) :
    ch.isHalfOp u = n.letters.h := by
  have only : ∀ r, u ∈ ch.members r ↔ n = r := fun r => by
    rw [← Channel.rank_iff once, rank, Option.some_inj]
  simp only [Channel.isHalfOp, only]
  cases n <;> rfl

/-- A move changes the rank of one member. -/
theorem Channel.rank_changeMembership {who : ClientId} {r : Rank} (rank : ch.rank who = some r)
    (toRank : Rank) (mine : Bool) (u : ClientId) :
    (ch.changeMembership toRank who mine).rank u = if u = who then some toRank else ch.rank u := by
  have onList := (Channel.rank_iff once).mp rank
  have once' := (Channel.changeMembership_all once onList toRank mine).nodup_iff.mpr once
  have members := Channel.changeMembership_members once onList toRank mine
  have moved : ∀ n, u ∈ (ch.changeMembership toRank who mine).members n ↔
      if u = who then n = toRank else u ∈ ch.members n := by
    intro n
    rw [members]
    by_cases stays : r = toRank
    · subst stays
      rw [if_pos rfl]
      by_cases self : u = who
      · subst self
        rw [if_pos rfl, ← Channel.rank_iff once, rank, Option.some_inj, eq_comm]
      · rw [if_neg self]
    · rw [if_neg stays]
      by_cases target : n = toRank
      · subst target
        rw [Lists.add_self, List.mem_cons, Lists.delete_ne _ _ (Ne.symm stays)]
        by_cases self : u = who <;> simp [self]
      · rw [Lists.add_ne _ _ target]
        have rest : u ∈ Lists.delete ch.members r who n ↔ u ∈ ch.members n ∧ u ≠ who := by
          by_cases source : n = r
          · subst source
            rw [Lists.delete_self, (Lists.nodup_of_all once n).mem_erase_iff, and_comm]
          · rw [Lists.delete_ne _ _ source]
            refine ⟨fun on => ⟨on, ?_⟩, And.left⟩
            rintro rfl
            exact source (Lists.rank_unique once on onList)
        rw [rest]
        by_cases self : u = who <;> simp [self, target]
  by_cases self : u = who
  · rw [if_pos self, Channel.rank_iff once', moved, if_pos self]
  · rw [if_neg self]
    apply Option.ext
    intro n
    rw [Channel.rank_iff once', moved, if_neg self, Channel.rank_iff once]

end OneRank

/-! ### Entries of one member -/

/-- What the callers see to: the members are on one list each, and have nicks that differ. No
nick begins with the dot of the ids. -/
structure ModeContext.Sane (x : ModeContext) : Prop where
  once : (Lists.all (x.s.channel x.chptr).members).Nodup
  back : ∀ u, x.s.isMember u x.chptr = true ↔ u ∈ Lists.all (x.s.channel x.chptr).members
  names : ∀ u v, x.s.isMember u x.chptr = true → x.s.isMember v x.chptr = true →
    IrcEq (x.s.client u).name (x.s.client v).name → u = v
  undotted : ∀ u, x.s.isMember u x.chptr = true → (x.s.client u).name.head? ≠ some '.'

/-- The changes of ranks have the nicks of members. -/
def Signed (x : ModeContext) (list : List ChModeChange) : Prop :=
  ∀ e ∈ list, e.letter ∈ rankLetters →
    ∃ u, x.s.isMember u x.chptr = true ∧ e.arg = some (x.s.client u).name

theorem Signed.wipeAll {x : ModeContext} {list : List ChModeChange} (signed : Signed x list)
    (p : ChModeChange → Bool) : Signed x (wipeAll p list) := by
  intro e member letter
  obtain ⟨e₀, old, rfl⟩ := List.mem_map.mp member
  split at letter
  · exact absurd letter (by simp [rankLetters])
  · rename_i kept
    rw [if_neg kept]
    exact signed e₀ old letter

theorem Signed.append {x : ModeContext} {list : List ChModeChange} (signed : Signed x list)
    {targ : ClientId} (member : x.s.isMember targ x.chptr = true) (c : Char) (caps : Finset Cap)
    (id : Option (List Char)) :
    Signed x (list ++ [.forOps c caps (x.s.client targ).name id]) := by
  intro e inList letter
  rcases List.mem_append.mp inList with old | new
  · exact signed e old letter
  · obtain rfl := List.mem_singleton.mp new
    exact ⟨targ, member, rfl⟩

theorem hasPending_wipeAll {c : Char} (letter : c ∈ rankLetters) (p : ChModeChange → Bool)
    (list : List ChModeChange) (nick : List Char) : hasPending (wipeAll p list) c nick = true ↔
      ∃ e ∈ list, p e = false ∧ e.letter = c ∧ ∃ arg, e.arg = some arg ∧ IrcEq arg nick := by
  have pending : c ≠ '\x00' := by
    rintro rfl
    exact absurd letter (by decide)
  rw [hasPending_entries, entries_wipeAll pending, List.any_eq_true]
  simp only [List.mem_filter, mem_entries, isFor_iff, List.mem_singleton, Bool.not_eq_true']
  constructor
  · rintro ⟨e, ⟨⟨member, -⟩, kept⟩, letter, arg⟩
    exact ⟨e, member, kept, letter, arg⟩
  · rintro ⟨e, member, kept, letter, arg⟩
    exact ⟨e, ⟨⟨member, letter⟩, kept⟩, letter, arg⟩

theorem hasPending_append (list : List ChModeChange) (c c' : Char) (caps : Finset Cap)
    (arg nick : List Char) (id : Option (List Char)) :
    hasPending (list ++ [.forOps c caps arg id]) c' nick =
      (hasPending list c' nick || (c == c' && decide (IrcEq arg nick))) := by
  simp [hasPending, ChModeChange.isFor, ChModeChange.forOps, Bool.beq_eq_decide_eq, eq_comm]

/-- The target of a letter, as the entries of the list see him. -/
structure Refers (x : ModeContext) (list : List ChModeChange) (opnick : List Char)
    (targ : ClientId) : Prop where
  same : ∀ c ∈ rankLetters,
    hasPending list c opnick = hasPending list c (x.s.client targ).name
  wiped : ∀ letters ⊆ rankLetters, ∀ c ∈ rankLetters,
    hasPending (wipeAll (·.isFor letters opnick) list) c (x.s.client targ).name =
      (hasPending list c (x.s.client targ).name && !letters.contains c)
  others : ∀ u, x.s.isMember u x.chptr = true → u ≠ targ → ∀ letters ⊆ rankLetters,
    ∀ c ∈ rankLetters, hasPending (wipeAll (·.isFor letters opnick) list) c (x.s.client u).name =
      hasPending list c (x.s.client u).name

theorem refers_of_nick {x : ModeContext} (sane : x.Sane) (list : List ChModeChange)
    {opnick : List Char} {targ : ClientId} (member : x.s.isMember targ x.chptr = true)
    (equal : IrcEq opnick (x.s.client targ).name) : Refers x list opnick targ where
  same c _ := by
    rw [Bool.eq_iff_iff, hasPending_iff, hasPending_iff]
    constructor
    · rintro ⟨e, inList, letter, arg, given, same⟩
      exact ⟨e, inList, letter, arg, given, same.trans equal⟩
    · rintro ⟨e, inList, letter, arg, given, same⟩
      exact ⟨e, inList, letter, arg, given, same.trans equal.symm⟩
  wiped letters _ c letter := by
    rw [Bool.eq_iff_iff, hasPending_wipeAll letter, Bool.and_eq_true, hasPending_iff]
    constructor
    · rintro ⟨e, inList, kept, rfl, arg, given, same⟩
      refine ⟨⟨e, inList, rfl, arg, given, same⟩, ?_⟩
      rw [Bool.not_eq_true', ← Bool.not_eq_true, List.contains_iff_mem]
      intro inLetters
      rw [← Bool.not_eq_true, isFor_iff] at kept
      exact kept ⟨inLetters, arg, given, same.trans equal.symm⟩
    · rintro ⟨⟨e, inList, rfl, arg, given, same⟩, apart⟩
      refine ⟨e, inList, ?_, rfl, arg, given, same⟩
      rw [Bool.not_eq_true', ← Bool.not_eq_true, List.contains_iff_mem] at apart
      rw [← Bool.not_eq_true, isFor_iff]
      exact fun found => apart found.1
  others u isMember different letters _ c letter := by
    rw [Bool.eq_iff_iff, hasPending_wipeAll letter, hasPending_iff]
    constructor
    · rintro ⟨e, inList, -, rfl, arg, given, same⟩
      exact ⟨e, inList, rfl, arg, given, same⟩
    · rintro ⟨e, inList, rfl, arg, given, same⟩
      refine ⟨e, inList, ?_, rfl, arg, given, same⟩
      rw [← Bool.not_eq_true, isFor_iff]
      rintro ⟨-, arg', given', same'⟩
      obtain rfl := Option.some.inj (given.symm.trans given')
      exact different (sane.names u targ isMember member (same.symm.trans (same'.trans equal)))

theorem head_of_ircEq {s t : List Char} (equal : IrcEq s t) (dot : t.head? = some '.') :
    s.head? = some '.' := by
  cases t with
  | nil => cases dot
  | cons d t =>
    obtain rfl := Option.some.inj dot
    cases s with
    | nil => cases equal
    | cons c s =>
      have upper : toUpper c = toUpper '.' := (List.cons.inj equal).1
      rw [List.head?_cons, Option.some_inj]
      exact eq_of_toUpper upper (by decide)

section Ids

variable {x : ModeContext} {list : List ChModeChange} {opnick : List Char} (sane : x.Sane) (signed : Signed x list)
  (dot : opnick.head? = some '.')

include sane signed dot

/-- No entry has the id. -/
theorem Signed.no_id {e : ChModeChange} (member : e ∈ list) (letter : e.letter ∈ rankLetters) {arg : List Char}
    (given : e.arg = some arg) : ¬ IrcEq arg opnick := by
  intro equal
  obtain ⟨u, isMember, name⟩ := signed e member letter
  obtain rfl := Option.some.inj (name.symm.trans given)
  exact sane.undotted u isMember (head_of_ircEq equal dot)

theorem Signed.hasPending_id {c : Char} (letter : c ∈ rankLetters) : hasPending list c opnick = false := by
  rw [← Bool.not_eq_true, hasPending_iff]
  rintro ⟨e, inList, rfl, arg, given, same⟩
  exact signed.no_id sane dot inList letter given same

theorem Signed.wipeAll_id (letters : List Char) {c : Char} (letter : c ∈ rankLetters) (nick : List Char) :
    hasPending (Chan.wipeAll (·.isFor letters opnick) list) c nick = hasPending list c nick := by
  rw [Bool.eq_iff_iff, hasPending_wipeAll letter, hasPending_iff]
  constructor
  · rintro ⟨e, inList, -, rfl, arg⟩
    exact ⟨e, inList, rfl, arg⟩
  · rintro ⟨e, inList, rfl, arg⟩
    refine ⟨e, inList, ?_, rfl, arg⟩
    rw [← Bool.not_eq_true, isFor_iff]
    rintro ⟨-, arg', given, same⟩
    exact signed.no_id sane dot inList letter given same

end Ids

theorem Channel.rank_eq_none {ch : Channel} {u : ClientId} :
    ch.rank u = none ↔ u ∉ Lists.all ch.members := by
  rw [Channel.rank, Lists.find_eq_none mem_changeOrder, Lists.mem_all, not_exists]

end Ircd.Chan
