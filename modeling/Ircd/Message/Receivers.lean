import Ircd.Lib.Fresh
import Ircd.Message.TargetList
import Ircd.Who.Secrets
import Mathlib.Data.List.Pairwise

/-!
# Who receives a message

A name that has been in the list before is not skipped. It falls through to the next interpretations, and in the end it is
a mask or nobody's name. A mask that stands for one person is sent to them at once, and neither counts nor is looked up
in the table.
-/
namespace Ircd.Message

open Ircd.Routing (ClientId)

/-- Whom something is sent to as a message. -/
def Act.told : Act → Option ClientId
  | .anywhere p => some p
  | _ => none

namespace Command

variable (m : Command)

/-! ### What names stand for -/

/-- The channel or person that a name is the name of. -/
def named (name : List Char) : Option Target :=
  if isChanPrefix name then
    if m.fromServer ∧ name.head? = some '&' then none else (m.net.hashFindChannel name).map .channel
  else
    match m.findPerson name with
    | some p => some (.person p)
    | none =>
      match stripPrefix none name with
      | (none, _) => none
      | (some _, nick) => if nick = [] then none else ((m.net.hashFindChannel nick).filter m.ranked).map .channel

/-- The person that a mask stands for. -/
def masked (name : List Char) : Option ClientId :=
  if isChanPrefix name ∨ (m.findPerson name).isSome ∨ (stripPrefix none name).1.isSome ∨ m.handled name = false then none
  else (m.handleOpers name).bind Act.told

/-- The channel or person that a name resolves to. -/
def resolve (name : List Char) : Option Target := (m.named name).or ((m.masked name).map .person)

/-- The channels and persons in the order in which they first come. -/
def firsts (targets : List Target) : List Target := fresh (fun _ => false) targets

/-- Who has received a message. -/
def Outcome.receivers : Outcome → List Target
  | .sent targets log => targets.map (·.ptr) ++ (log.filterMap fun entry => entry.2.told).map .person
  | _ => []

def Outcome.log : Outcome → Log
  | .sent _ log => log
  | _ => []

/-- The first `max_targets` receive the message, each once, and only who does not exist is said not to. -/
structure Right (list text : List Char) : Prop where
  receivers : (m.mMessage list text).receivers.Perm
    ((firsts ((tokens list).filterMap m.resolve)).take m.maxTargets.toNat)
  replies : ∀ name nick, (name, .noSuchNick nick) ∈ (m.mMessage list text).log → m.resolve name = none

/-! ### The way through the list -/

/-- The names that the loop comes to, with whether they are repetitions. -/
def visits (seen : List Target) : List (List Char) → List (List Char × Bool)
  | [] => []
  | name :: names =>
    match m.named name with
    | some t =>
      if t ∈ seen then (name, true) :: visits seen names
      else (name, false) :: if m.maxTargets ≤ seen.length + 1 then [] else visits (seen ++ [t]) names
    | none => (name, false) :: visits seen names

/-- A name without its prefix. -/
def bare (name : List Char) : List Char := (stripPrefix none name).2

/-- What becomes of what nothing is found for, on a server that is no lazy leaf. -/
def answer (nick : List Char) : Option Act :=
  if m.handled nick then m.handleOpers nick else if m.notice then none else some (.noSuchNick nick)

/-- The repetition of a name does no harm: nobody is told anything. -/
def Quiet (name : List Char) : Prop :=
  if m.handled (bare name) then (m.handleOpers (bare name)).bind Act.told = none else m.notice = true

/-- What the loop finds for the first time. -/
def found (visits : List (List Char × Bool)) : List Target :=
  visits.filterMap fun v => if v.2 then none else m.named v.1

/-- Whom masks stand for. -/
def byMask (visits : List (List Char × Bool)) : List ClientId := visits.filterMap fun v => m.masked v.1

/-- What is said about a name that is nobody's. -/
def missing (name : List Char) : Option Act :=
  match m.turn [] name with
  | .say act => act
  | _ => none

/-- What is said on the way. -/
def said (v : List Char × Bool) : Option Act :=
  if v.2 then m.answer (bare v.1) else if (m.named v.1).isSome then none else m.missing v.1

/-- What a list must be like: there is room for somebody, repetitions do no harm, and where masks stand for persons all
fit in, and none of them is named twice. -/
structure Plain (list : List Char) : Prop where
  room : 1 ≤ m.maxTargets ∨ ∀ name ∈ tokens list, m.resolve name = none
  repetitions : ∀ name, (name, true) ∈ m.visits [] (tokens list) → m.Quiet name
  masks : m.byMask (m.visits [] (tokens list)) = [] ∨
    (m.byMask (m.visits [] (tokens list))).Nodup ∧
      (∀ p ∈ m.byMask (m.visits [] (tokens list)), .person p ∉ m.found (m.visits [] (tokens list))) ∧
      (m.found (m.visits [] (tokens list))).length + (m.byMask (m.visits [] (tokens list))).length ≤
        m.maxTargets

variable {m}

/-! ### A name -/

theorem marked_of_ircEq {s t : List Char} (same : IrcEq s t) (mark : marked s = true) : marked t = true := by
  cases s with
  | nil => simp [marked] at mark
  | cons c s =>
    cases t with
    | nil => simp [IrcEq] at same
    | cons d t =>
      have first : toUpper c = toUpper d := (List.cons_eq_cons.mp same).1
      have low : c.toNat < 65 ∧ toUpper c = c := by
        simp only [marked, List.head?_cons, Option.any_some, decide_eq_true_eq, List.mem_cons, List.not_mem_nil,
          or_false] at mark
        rcases mark with rfl | rfl | rfl | rfl | rfl <;> decide
      have back : d = c := eq_of_toUpper (first.symm.trans low.2) low.1
      rw [back]
      exact mark

/-- A name that begins like a channel's, or with a prefix, is not that of a person. -/
theorem findPerson_of_marked {name : List Char} (mark : marked name = true) : m.findPerson name = none := by
  rw [findPerson, Option.filter_eq_none_iff]
  intro c find
  have plain : name.head? ≠ some '.' := by
    intro dot
    rw [marked, dot] at mark
    exact absurd mark (by decide)
  rw [Routing.Table.findClient, if_neg plain] at find
  have same : IrcEq name (m.net.client c).name := by simpa using List.find?_some find
  intro person
  have nick := m.nicks c (List.mem_of_find?_eq_some find) person
  rw [marked_of_ircEq same mark] at nick
  exact absurd nick (by decide)

theorem marked_of_isChanPrefix {name : List Char} (prefixed : isChanPrefix name = true) : marked name = true := by
  rw [isChanPrefix, decide_eq_true_eq] at prefixed
  rcases prefixed with head | head <;> simp [marked, head]

theorem stripPrefix_of_plain {name : List Char} (plain : ∀ c ∈ name.head?, c ∉ ['@', '%', '+'])
    (type : Option Ranks) : stripPrefix type name = (type, name) := by
  unfold stripPrefix
  split
  · exact absurd (plain '@' rfl) (by decide)
  · exact absurd (plain '%' rfl) (by decide)
  · exact absurd (plain '+' rfl) (by decide)
  · rfl

theorem stripPrefix_some (type : Ranks) (name : List Char) : (stripPrefix (some type) name).1 ≠ none := by
  induction name generalizing type with
  | nil => simp [stripPrefix]
  | cons c name ih =>
    unfold stripPrefix
    split
    case h_1 same => exact (List.cons_eq_cons.mp same).2 ▸ ih _
    case h_2 same => exact (List.cons_eq_cons.mp same).2 ▸ ih _
    case h_3 same => exact (List.cons_eq_cons.mp same).2 ▸ ih _
    case h_4 => simp

/-- A name without a prefix is left as it is. -/
theorem stripPrefix_none {name nick : List Char} (strip : stripPrefix none name = (none, nick)) : nick = name := by
  unfold stripPrefix at strip
  split at strip
  case h_4 => exact (Prod.mk.inj strip).2.symm
  all_goals exact absurd (congrArg Prod.fst strip) (stripPrefix_some _ _)

theorem stripPrefix_of_isChanPrefix {name : List Char} (prefixed : isChanPrefix name = true) :
    stripPrefix none name = (none, name) := by
  apply stripPrefix_of_plain
  intro c head
  rw [isChanPrefix, decide_eq_true_eq] at prefixed
  rcases prefixed with h | h <;> (obtain rfl := Option.some.inj (h.symm.trans head); decide)

theorem stripPrefix_of_person {name : List Char} {p : ClientId} (person : m.findPerson name = some p) :
    stripPrefix none name = (none, name) := by
  apply stripPrefix_of_plain
  intro c head mark
  have none_ : m.findPerson name = none := by
    apply findPerson_of_marked
    rw [Option.mem_def] at head
    rw [marked, head, Option.any_some, decide_eq_true_eq]
    exact List.mem_cons_of_mem _ (List.mem_cons_of_mem _ mark)
  rw [none_] at person
  cases person

theorem rest_eq (leaf : m.net.lazyLeaf = false) (nick : List Char) : m.rest nick = .say (m.answer nick) := by
  cases handled : m.handled nick <;> simp [rest, answer, miss, handled, leaf]

theorem answer_told (nick : List Char) :
    (m.answer nick).bind Act.told = if m.handled nick then (m.handleOpers nick).bind Act.told else none := by
  cases handled : m.handled nick <;> cases notice : m.notice <;> simp [answer, handled, notice, Act.told]

/-- A name that stands for a channel or person adds it to the table, or falls through to the end if it is there. -/
theorem turn_of_named (leaf : m.net.lazyLeaf = false) {name : List Char} {t : Target} (named : m.named name = some t) :
    ∃ flags, ∀ targets, m.turn targets name =
      if duplicatePtr targets t then .say (m.answer (bare name)) else .add ⟨t, flags⟩ := by
  cases prefixed : isChanPrefix name
  · cases person : m.findPerson name with
    | some p =>
      obtain rfl : .person p = t := by simpa [Command.named, prefixed, person] using named
      refine ⟨none, fun targets => ?_⟩
      simp [turn, asPerson, asPrefixed, prefixed, person, stripPrefix_of_person person, bare, rest_eq leaf]
    | none =>
      rcases strip : stripPrefix none name with ⟨type, nick⟩
      cases type with
      | none => simp [Command.named, prefixed, person, strip] at named
      | some type =>
        have nonempty : nick ≠ [] := by
          rintro rfl
          simp [Command.named, prefixed, person, strip] at named
        simp only [Command.named, prefixed, person, strip, nonempty, Bool.false_eq_true, if_false,
          Option.map_eq_some_iff, Option.filter_eq_some_iff] at named
        obtain ⟨c, ⟨channel, ranked⟩, rfl⟩ := named
        refine ⟨some type, fun targets => ?_⟩
        simp [turn, asPerson, asPrefixed, prefixed, person, strip, nonempty, channel, ranked, bare, rest_eq leaf]
  · have person : m.findPerson name = none := findPerson_of_marked (marked_of_isChanPrefix prefixed)
    have strip := stripPrefix_of_isChanPrefix prefixed
    by_cases skipped : m.fromServer = true ∧ name.head? = some '&'
    · simp [Command.named, prefixed, skipped] at named
    · simp only [Command.named, prefixed, skipped, if_true, if_false, Option.map_eq_some_iff] at named
      obtain ⟨c, channel, rfl⟩ := named
      refine ⟨none, fun targets => ?_⟩
      simp only [turn, prefixed, skipped, if_true, if_false, channel, asPerson, person, asPrefixed, strip, bare,
        rest_eq leaf]

theorem exists_say (leaf : m.net.lazyLeaf = false) {name : List Char} (unnamed : m.named name = none) :
    ∃ act, (∀ targets, m.turn targets name = .say act) ∧ act.bind Act.told = m.masked name := by
  have missed (nick : List Char) : m.miss nick = .say (if m.notice then none else some (.noSuchNick nick)) := by
    simp [miss, leaf]
  have untold (nick : List Char) :
      (if m.notice then none else some (Act.noSuchNick nick)).bind Act.told = none := by
    cases m.notice <;> rfl
  cases prefixed : isChanPrefix name
  · cases person : m.findPerson name with
    | some p => simp [Command.named, prefixed, person] at unnamed
    | none =>
      rcases strip : stripPrefix none name with ⟨type, nick⟩
      cases type with
      | none =>
        have same : nick = name := stripPrefix_none strip
        refine ⟨m.answer nick, fun targets => ?_, ?_⟩
        · simp [turn, asPerson, asPrefixed, prefixed, person, strip, rest_eq leaf]
        · rw [answer_told, same]
          cases handled : m.handled name <;> simp [masked, prefixed, person, strip, handled]
      | some type =>
        have none_ : m.masked name = none := by simp [masked, strip]
        rw [none_]
        by_cases empty : nick = []
        · refine ⟨some .noRecipient, fun targets => ?_, rfl⟩
          simp [turn, asPerson, asPrefixed, prefixed, person, strip, empty]
        · cases channel : m.net.hashFindChannel nick with
          | none =>
            refine ⟨_, fun targets => ?_, untold nick⟩
            simp [turn, asPerson, asPrefixed, prefixed, person, strip, empty, channel, missed]
          | some c =>
            have ranked : m.ranked c = false := by
              simpa [Command.named, prefixed, person, strip, empty, channel, Option.filter] using unnamed
            refine ⟨some (.noSuchNick name), fun targets => ?_, rfl⟩
            simp [turn, asPerson, asPrefixed, prefixed, person, strip, empty, channel, ranked]
  · have none_ : m.masked name = none := by simp [masked, prefixed]
    rw [none_]
    by_cases skipped : m.fromServer = true ∧ name.head? = some '&'
    · exact ⟨none, fun targets => by simp [turn, prefixed, skipped], rfl⟩
    · have channel : m.net.hashFindChannel name = none := by
        simpa [Command.named, prefixed, skipped] using unnamed
      refine ⟨_, fun targets => ?_, untold name⟩
      simp only [turn, prefixed, skipped, if_true, if_false, channel, missed]

/-- About any other name something is said, which only a mask makes a message. -/
theorem turn_of_unnamed (leaf : m.net.lazyLeaf = false) {name : List Char} (unnamed : m.named name = none) :
    (∀ targets, m.turn targets name = .say (m.missing name)) ∧ (m.missing name).bind Act.told = m.masked name := by
  obtain ⟨act, turn, told⟩ := exists_say leaf unnamed
  have same : m.missing name = act := by rw [missing, turn]
  rw [same]
  exact ⟨turn, told⟩

theorem masked_of_named {name : List Char} {t : Target} (named : m.named name = some t) : m.masked name = none := by
  cases prefixed : isChanPrefix name
  · cases person : m.findPerson name with
    | some p => simp [masked, person]
    | none =>
      rcases strip : stripPrefix none name with ⟨_ | type, nick⟩
      · simp [Command.named, prefixed, person, strip] at named
      · simp [masked, strip]
  · simp [masked, prefixed]

/-! ### The loop -/

theorem duplicatePtr_iff {targets : List Entity} {t : Target} :
    duplicatePtr targets t = true ↔ t ∈ targets.map (·.ptr) := by
  simp [duplicatePtr]

/-- What the loop gives: the table, and what has been said on the way. -/
theorem buildTargets_eq (leaf : m.net.lazyLeaf = false) (names : List (List Char)) (targets : List Entity) :
    ∃ es, es.map (·.ptr) = m.found (m.visits (targets.map (·.ptr)) names) ∧
      m.buildTargets targets names = some (targets ++ es,
        (m.visits (targets.map (·.ptr)) names).flatMap fun v => ((m.said v).map (v.1, ·)).toList) := by
  induction names generalizing targets with
  | nil => exact ⟨[], by simp [visits, found], by simp [buildTargets, visits]⟩
  | cons name names ih =>
    cases named : m.named name with
    | none =>
      obtain ⟨es, table, run⟩ := ih targets
      refine ⟨es, ?_, ?_⟩
      · simpa [visits, named, found] using table
      · rw [buildTargets, (turn_of_unnamed leaf named).1]
        simp [run, visits, named, said]
    | some t =>
      obtain ⟨flags, turn⟩ := turn_of_named leaf named
      rw [buildTargets, turn]
      by_cases old : t ∈ targets.map (·.ptr)
      · obtain ⟨es, table, run⟩ := ih targets
        refine ⟨es, ?_, ?_⟩
        · simpa only [visits, named, old, if_true, found, List.filterMap_cons] using table
        · rw [if_pos (duplicatePtr_iff.mpr old)]
          simp only [run, visits, named, old, if_true, said, Option.map_some, List.flatMap_cons]
      · rw [if_neg fun dup => old (duplicatePtr_iff.mp dup)]
        have length : ((targets ++ [(⟨t, flags⟩ : Entity)]).length : ℤ) = (targets.map (·.ptr)).length + 1 := by simp
        by_cases full : m.maxTargets ≤ (targets.map (·.ptr)).length + 1
        · refine ⟨[⟨t, flags⟩], ?_, ?_⟩
          · simp only [visits, named, old, full, if_true, if_false, found]
            simp [named]
          · simp only [length, visits, named, old, full, if_true, if_false, said]
            simp [named]
        · obtain ⟨es, table, run⟩ := ih (targets ++ [⟨t, flags⟩])
          rw [List.map_append, List.map_singleton] at table run
          refine ⟨⟨t, flags⟩ :: es, ?_, ?_⟩
          · simp only [visits, named, old, full, if_false, found, List.filterMap_cons, List.map_cons]
            simpa [named, found] using table
          · simp only [length, visits, named, old, full, if_false, run, said]
            simp [named]

theorem visits_cons_none {name : List Char} (named : m.named name = none) (seen : List Target)
    (names : List (List Char)) : m.visits seen (name :: names) = (name, false) :: m.visits seen names := by
  simp [visits, named]

theorem visits_cons_old {name : List Char} {t : Target} (named : m.named name = some t) {seen : List Target}
    (old : t ∈ seen) (names : List (List Char)) :
    m.visits seen (name :: names) = (name, true) :: m.visits seen names := by
  simp [visits, named, old]

theorem visits_cons_new {name : List Char} {t : Target} (named : m.named name = some t) {seen : List Target}
    (new : t ∉ seen) (names : List (List Char)) :
    m.visits seen (name :: names) =
      (name, false) :: if m.maxTargets ≤ seen.length + 1 then [] else m.visits (seen ++ [t]) names := by
  simp [visits, named, new]

/-- The loop comes to a first part of the list. -/
theorem visits_prefix (seen : List Target) (names : List (List Char)) :
    ∃ behind, (m.visits seen names).map (·.1) ++ behind = names := by
  induction names generalizing seen with
  | nil => exact ⟨[], rfl⟩
  | cons name names ih =>
    cases named : m.named name with
    | none =>
      obtain ⟨behind, split⟩ := ih seen
      exact ⟨behind, by rw [visits_cons_none named, List.map_cons, List.cons_append, split]⟩
    | some t =>
      by_cases old : t ∈ seen
      · obtain ⟨behind, split⟩ := ih seen
        exact ⟨behind, by rw [visits_cons_old named old, List.map_cons, List.cons_append, split]⟩
      · rw [visits_cons_new named old]
        split
        · exact ⟨names, rfl⟩
        · obtain ⟨behind, split⟩ := ih (seen ++ [t])
          exact ⟨behind, by rw [List.map_cons, List.cons_append, split]⟩

/-- What is found is what comes for the first time. -/
theorem found_visits (seen : List Target) (names : List (List Char)) :
    m.found (m.visits seen names) =
      fresh (fun t => decide (t ∈ seen)) ((m.visits seen names).filterMap fun v => m.named v.1) := by
  induction names generalizing seen with
  | nil => rfl
  | cons name names ih =>
    cases named : m.named name with
    | none => simpa [visits_cons_none named, found, named] using ih seen
    | some t =>
      have head (repeated : Bool) (l : List (List Char × Bool)) :
          ((name, repeated) :: l).filterMap (fun v => m.named v.1) = t :: l.filterMap fun v => m.named v.1 := by
        simp [named]
      by_cases old : t ∈ seen
      · rw [visits_cons_old named old, head, fresh, if_pos (decide_eq_true old), ← ih seen]
        rfl
      · have later : Function.update (fun t => decide (t ∈ seen)) t true = fun a => decide (a ∈ seen ++ [t]) := by
          funext a
          by_cases same : a = t <;> simp [same]
        have unseen : ¬decide (t ∈ seen) = true := by simp [old]
        rw [visits_cons_new named old, head, fresh, if_neg unseen, later]
        split
        · simp [found, named, fresh]
        · rw [← ih (seen ++ [t])]
          simp [found, named]

/-- The loop ends with the list, or when the table is full. -/
theorem visits_end {seen : List Target} (room : seen.length < m.maxTargets) (names : List (List Char)) :
    (m.visits seen names).map (·.1) = names ∧
        seen.length + (m.found (m.visits seen names)).length < m.maxTargets ∨
      seen.length + (m.found (m.visits seen names)).length = m.maxTargets := by
  induction names generalizing seen with
  | nil => exact .inl ⟨rfl, by simpa [visits, found] using room⟩
  | cons name names ih =>
    cases named : m.named name with
    | none => simpa [visits_cons_none named, found, named] using ih room
    | some t =>
      by_cases old : t ∈ seen
      · simpa [visits_cons_old named old, found] using ih room
      · rw [visits_cons_new named old]
        split
        next full =>
          right
          simp only [found, named, List.filterMap_cons, List.filterMap_nil]
          simp only [Bool.false_eq_true, if_false, List.length_singleton]
          push_cast
          omega
        next more =>
          have length : ((seen ++ [t]).length : ℤ) = seen.length + 1 := by simp
          have room' : ((seen ++ [t]).length : ℤ) < m.maxTargets := by omega
          have step := ih room'
          rw [length] at step
          rw [List.map_cons, List.cons_eq_cons]
          have count : (m.found ((name, false) :: m.visits (seen ++ [t]) names)).length =
              (m.found (m.visits (seen ++ [t]) names)).length + 1 := by
            simp [found, named]
          rw [count]
          push_cast
          rcases step with ⟨all, more⟩ | full
          · exact .inl ⟨⟨rfl, all⟩, by omega⟩
          · exact .inr (by omega)

/-- Where nothing is found the loop comes to the end of the list. -/
theorem visits_all {seen : List Target} {names : List (List Char)} (none_ : m.found (m.visits seen names) = []) :
    (m.visits seen names).map (·.1) = names := by
  induction names generalizing seen with
  | nil => rfl
  | cons name names ih =>
    cases named : m.named name with
    | none =>
      rw [visits_cons_none named] at none_ ⊢
      rw [List.map_cons, ih (by simpa [found, named] using none_)]
    | some t =>
      by_cases old : t ∈ seen
      · rw [visits_cons_old named old] at none_ ⊢
        rw [List.map_cons, ih (by simpa [found] using none_)]
      · rw [visits_cons_new named old] at none_
        simp [found, named] at none_

/-- A repetition is the name of what has been found. -/
theorem named_of_repetition {seen : List Target} {names : List (List Char)} {name : List Char}
    (repeated : (name, true) ∈ m.visits seen names) : ∃ t, m.named name = some t := by
  induction names generalizing seen with
  | nil => simp [visits] at repeated
  | cons first names ih =>
    cases named : m.named first with
    | none =>
      rw [visits_cons_none named, List.mem_cons] at repeated
      rcases repeated with same | later
      · simp at same
      · exact ih later
    | some t =>
      by_cases old : t ∈ seen
      · rw [visits_cons_old named old, List.mem_cons] at repeated
        rcases repeated with same | later
        · obtain ⟨rfl, -⟩ := Prod.mk.inj same
          exact ⟨t, named⟩
        · exact ih later
      · rw [visits_cons_new named old, List.mem_cons] at repeated
        rcases repeated with same | later
        · simp at same
        · split at later
          · cases later
          · exact ih later

/-! ### Everything that is sent -/

/-- Who is told something on the way. -/
def told (m : Command) (v : List Char × Bool) : Option ClientId := (m.said v).bind Act.told

theorem told_false (leaf : m.net.lazyLeaf = false) (name : List Char) : m.told (name, false) = m.masked name := by
  cases named : m.named name with
  | none =>
    rw [← (turn_of_unnamed leaf named).2]
    simp [told, said, named]
  | some t =>
    rw [masked_of_named named]
    simp [told, said, named]

theorem told_true (name : List Char) : m.told (name, true) = (m.answer (bare name)).bind Act.told := rfl

theorem mMessage_eq (leaf : m.net.lazyLeaf = false) (list : List Char) {text : List Char} (nonempty : text ≠ []) :
    (m.mMessage list text).receivers = m.found (m.visits [] (tokens list)) ++
        ((m.visits [] (tokens list)).filterMap m.told).map .person ∧
      (m.mMessage list text).log =
        (m.visits [] (tokens list)).flatMap fun v => ((m.said v).map (v.1, ·)).toList := by
  obtain ⟨es, table, run⟩ := buildTargets_eq leaf (tokens list) []
  rw [List.map_nil] at table run
  have collect (l : List (List Char × Bool)) :
      (l.flatMap fun v => ((m.said v).map (v.1, ·)).toList).filterMap (fun entry => entry.2.told) =
        l.filterMap m.told := by
    induction l with
    | nil => rfl
    | cons v l ih =>
      rw [List.flatMap_cons, List.filterMap_append, ih]
      cases said : m.said v with
      | none => simp [told, said]
      | some act => cases who : act.told <;> simp [told, said, who]
  by_cases empty : list = []
  · subst empty
    cases notice : m.notice <;>
      simp [mMessage, notice, Outcome.receivers, Outcome.log, tokens, visits, found]
  · simp [mMessage, empty, nonempty, buildTargetList, run, Outcome.receivers, Outcome.log, table, collect]

theorem handleMask_ne (nick other : List Char) : m.handleMask nick ≠ .noSuchNick other := by
  simp only [handleMask]
  split_ifs <;> simp

theorem handleUserhost_ne (nick other : List Char) : m.handleUserhost nick ≠ some (.noSuchNick other) := by
  intro same
  simp only [handleUserhost, Option.bind_eq_some_iff] at same
  obtain ⟨server, -, same⟩ := same
  split at same
  · simp at same
  split at same
  · simp at same
  obtain ⟨p, -, same⟩ := Option.map_eq_some_iff.mp same
  rcases ite_eq_iff.mp same with ⟨-, same⟩ | ⟨-, same⟩ <;> cases same

/-- Whatever a mask comes to, it is not said to be nobody's nick. -/
theorem handleOpers_ne (nick other : List Char) : m.handleOpers nick ≠ some (.noSuchNick other) := by
  rw [handleOpers]
  split_ifs
  · exact fun same => handleMask_ne nick other (Option.some.inj same)
  · exact handleUserhost_ne nick other
  · simp

theorem quiet_iff (name : List Char) :
    m.Quiet name ↔ m.told (name, true) = none ∧ ∀ nick, m.said (name, true) ≠ some (.noSuchNick nick) := by
  have said_eq : m.said (name, true) = m.answer (bare name) := rfl
  rw [told_true, said_eq, answer_told, Quiet, answer]
  cases handled : m.handled (bare name)
  · cases notice : m.notice <;> simp
  · simpa using fun _ nick => handleOpers_ne (bare name) nick

/-! ### The first of the names -/

theorem resolve_eq_some {name : List Char} {t : Target} :
    m.resolve name = some t ↔ m.named name = some t ∨ ∃ p, m.masked name = some p ∧ t = .person p := by
  cases named : m.named name with
  | none => simp [resolve, named, eq_comm]
  | some u =>
    have none_ := masked_of_named named
    simp [resolve, named, none_]

theorem resolve_of_masked_none {name : List Char} (none_ : m.masked name = none) :
    m.resolve name = m.named name := by
  simp [resolve, none_]

theorem found_nodup (names : List (List Char)) : (m.found (m.visits [] names)).Nodup := by
  rw [found_visits]
  exact fresh_nodup

theorem mem_found {names : List (List Char)} {t : Target} :
    t ∈ m.found (m.visits [] names) ↔ ∃ v ∈ m.visits [] names, m.named v.1 = some t := by
  rw [found_visits, mem_fresh, List.mem_filterMap]
  simp

/-- What the names that the loop comes to stand for, in the order of the list. -/
theorem firsts_split {names behind : List (List Char)}
    (split : (m.visits [] names).map (·.1) ++ behind = names) (none_ : m.byMask (m.visits [] names) = []) :
    ∃ more, firsts (names.filterMap m.resolve) = m.found (m.visits [] names) ++ more ∧
      (behind = [] → more = []) := by
  have here : ((m.visits [] names).map (·.1)).filterMap m.resolve =
      (m.visits [] names).filterMap fun v => m.named v.1 := by
    rw [List.filterMap_map]
    apply List.filterMap_congr
    intro v member
    have unmasked : m.masked v.1 = none := by
      rw [Option.eq_none_iff_forall_not_mem]
      intro p masked
      have inside : p ∈ m.byMask (m.visits [] names) := List.mem_filterMap.mpr ⟨v, member, masked⟩
      rw [none_] at inside
      cases inside
    exact resolve_of_masked_none unmasked
  have first : fresh (fun _ => false) ((m.visits [] names).filterMap fun v => m.named v.1) =
      m.found (m.visits [] names) := by
    rw [found_visits]
    exact fresh_congr fun t _ => by simp
  have whole := @fresh_append Target _ (fun _ => false) ((m.visits [] names).filterMap fun v => m.named v.1)
    (behind.filterMap m.resolve)
  rw [first, ← here, ← List.filterMap_append, split] at whole
  refine ⟨_, whole, ?_⟩
  rintro rfl
  rfl

/-! ### Right lists -/

theorem byMask_eq (leaf : m.net.lazyLeaf = false) {names : List (List Char)}
    (quiet : ∀ name, (name, true) ∈ m.visits [] names → m.told (name, true) = none) :
    (m.visits [] names).filterMap m.told = m.byMask (m.visits [] names) := by
  apply List.filterMap_congr
  rintro ⟨name, repeated⟩ member
  cases repeated with
  | false => exact told_false leaf name
  | true =>
    obtain ⟨t, named⟩ := named_of_repetition member
    rw [quiet name member, masked_of_named named]

theorem person_injective : Function.Injective Target.person := fun _ _ same => Target.person.inj same

/-- The first `max_targets` of a list whose masks stand for nobody. -/
theorem perm_of_unmasked {names : List (List Char)} (room : 1 ≤ m.maxTargets)
    (none_ : m.byMask (m.visits [] names) = []) :
    m.found (m.visits [] names) = (firsts (names.filterMap m.resolve)).take m.maxTargets.toNat := by
  obtain ⟨behind, split⟩ := visits_prefix (m := m) [] names
  obtain ⟨more, firsts_eq, empty⟩ := firsts_split split none_
  rw [firsts_eq]
  have start : ((([] : List Target).length : ℕ) : ℤ) < m.maxTargets := by
    rw [List.length_nil]
    omega
  rcases visits_end start names with ⟨all, fits⟩ | full
  · -- the loop has come to the end of the list
    have ended : behind = [] := by
      have lengths := congrArg List.length split
      rw [all, List.length_append] at lengths
      exact List.length_eq_zero_iff.mp (by omega)
    rw [empty ended, List.append_nil, List.take_of_length_le]
    rw [List.length_nil] at fits
    omega
  · rw [List.length_nil] at full
    have filled : m.maxTargets.toNat = (m.found (m.visits [] names)).length := by omega
    rw [filled, List.take_left]

theorem mem_firsts {targets : List Target} {t : Target} : t ∈ firsts targets ↔ t ∈ targets := by
  rw [firsts, mem_fresh]
  simp

/-- Nobody is told anything twice, and everybody who is told something is in the table or has a mask. -/
theorem perm_of_masked {names : List (List Char)} (nodup : (m.byMask (m.visits [] names)).Nodup)
    (apart : ∀ p ∈ m.byMask (m.visits [] names), .person p ∉ m.found (m.visits [] names))
    (fits : (m.found (m.visits [] names)).length + (m.byMask (m.visits [] names)).length ≤ m.maxTargets)
    (all : (m.visits [] names).map (·.1) = names) :
    (m.found (m.visits [] names) ++ (m.byMask (m.visits [] names)).map Target.person).Perm
      ((firsts (names.filterMap m.resolve)).take m.maxTargets.toNat) := by
  have once : (m.found (m.visits [] names) ++ (m.byMask (m.visits [] names)).map Target.person).Nodup := by
    refine (found_nodup names).append (nodup.map person_injective) ?_
    intro t inTable inMasks
    obtain ⟨p, masked, rfl⟩ := List.mem_map.mp inMasks
    exact apart p masked inTable
  have members : ∀ t, t ∈ m.found (m.visits [] names) ++ (m.byMask (m.visits [] names)).map .person ↔
      t ∈ firsts (names.filterMap m.resolve) := by
    intro t
    rw [mem_firsts, List.mem_append, mem_found, List.mem_map, List.mem_filterMap]
    constructor
    · rintro (⟨v, member, named⟩ | ⟨p, masked, rfl⟩)
      · exact ⟨v.1, all ▸ List.mem_map_of_mem member, resolve_eq_some.mpr (.inl named)⟩
      · obtain ⟨v, member, masked⟩ := List.mem_filterMap.mp masked
        exact ⟨v.1, all ▸ List.mem_map_of_mem member, resolve_eq_some.mpr (.inr ⟨p, masked, rfl⟩)⟩
    · rintro ⟨name, member, resolved⟩
      rw [← all, List.mem_map] at member
      obtain ⟨v, member, rfl⟩ := member
      rcases resolve_eq_some.mp resolved with named | ⟨p, masked, rfl⟩
      · exact .inl ⟨v, member, named⟩
      · exact .inr ⟨p, List.mem_filterMap.mpr ⟨v, member, masked⟩, rfl⟩
  have perm := (List.perm_ext_iff_of_nodup once fresh_nodup).mpr members
  have length := perm.length_eq
  rw [List.length_append, List.length_map] at length
  rw [List.take_of_length_le (by rw [← firsts] at length; omega)]
  exact perm

theorem Plain.perm (leaf : m.net.lazyLeaf = false) {list : List Char} (plain : m.Plain list) :
    (m.found (m.visits [] (tokens list)) ++ ((m.visits [] (tokens list)).filterMap m.told).map Target.person).Perm
      ((firsts ((tokens list).filterMap m.resolve)).take m.maxTargets.toNat) := by
  rw [byMask_eq leaf fun name repeated => ((quiet_iff name).mp (plain.repetitions name repeated)).1]
  by_cases none_ : m.byMask (m.visits [] (tokens list)) = []
  · rw [none_, List.map_nil, List.append_nil]
    rcases plain.room with room | nobody
    · rw [perm_of_unmasked room none_]
    · -- nothing is found for any of the names
      have names : (tokens list).filterMap m.resolve = [] := List.filterMap_eq_nil_iff.mpr nobody
      have table : m.found (m.visits [] (tokens list)) = [] := by
        rw [List.eq_nil_iff_forall_not_mem]
        intro t member
        obtain ⟨v, visited, named⟩ := mem_found.mp member
        obtain ⟨behind, split⟩ := visits_prefix (m := m) [] (tokens list)
        have inside : v.1 ∈ tokens list := split ▸ List.mem_append_left behind (List.mem_map_of_mem visited)
        have resolved := resolve_eq_some.mpr (.inl named)
        rw [nobody v.1 inside] at resolved
        cases resolved
      rw [names, table]
      exact List.Perm.of_eq List.take_nil.symm
  · obtain ⟨nodup, apart, fits⟩ := plain.masks.resolve_left none_
    have some_ : 0 < (m.byMask (m.visits [] (tokens list))).length := List.length_pos_iff.mpr none_
    have start : ((([] : List Target).length : ℕ) : ℤ) < m.maxTargets := by
      rw [List.length_nil]
      omega
    rcases visits_end start (tokens list) with ⟨all, -⟩ | full
    · exact perm_of_masked nodup apart fits all
    · rw [List.length_nil] at full
      omega

/-- Who is told the same is the same. -/
theorem eq_of_told {visits : List (List Char × Bool)} (nodup : (visits.filterMap m.told).Nodup)
    {v w : List Char × Bool} (first : v ∈ visits) (second : w ∈ visits) {p : ClientId} (one : m.told v = some p)
    (other : m.told w = some p) : v = w := by
  by_contra different
  have apart := List.pairwise_filterMap.mp nodup
  have symm : Std.Symm fun a b => ∀ q, m.told a = some q → ∀ r, m.told b = some r → q ≠ r :=
    ⟨fun a b apart q toldB r toldA same => apart r toldA q toldB same.symm⟩
  exact apart.forall first second different p one p other rfl

/-- Where there is no room nobody is named. -/
theorem nobody_of_nil (leaf : m.net.lazyLeaf = false) {names : List (List Char)}
    (table : m.found (m.visits [] names) = []) (told : (m.visits [] names).filterMap m.told = []) :
    ∀ name ∈ names, m.resolve name = none := by
  intro name member
  rw [Option.eq_none_iff_forall_not_mem]
  intro t resolved
  rw [← visits_all table, List.mem_map] at member
  obtain ⟨⟨name, repeated⟩, visited, rfl⟩ := member
  rcases resolve_eq_some.mp resolved with named | ⟨p, masked, rfl⟩
  · have inside : t ∈ m.found (m.visits [] names) := mem_found.mpr ⟨_, visited, named⟩
    rw [table] at inside
    cases inside
  · cases repeated with
    | true =>
      obtain ⟨u, named⟩ := named_of_repetition visited
      rw [masked_of_named named] at masked
      cases masked
    | false =>
      have tells : m.told (name, false) = some p := (told_false leaf name).trans masked
      have inside : p ∈ (m.visits [] names).filterMap m.told := List.mem_filterMap.mpr ⟨_, visited, tells⟩
      rw [told] at inside
      cases inside

theorem Right.plain (leaf : m.net.lazyLeaf = false) {list text : List Char} (nonempty : text ≠ [])
    (right : m.Right list text) : m.Plain list := by
  obtain ⟨receivers, log⟩ := mMessage_eq leaf list nonempty
  have perm := right.receivers
  have replies := right.replies
  rw [receivers] at perm
  rw [log] at replies
  have once := (perm.nodup_iff).mpr ((List.take_sublist _ _).nodup fresh_nodup)
  obtain ⟨-, toldOnce, apart⟩ := List.nodup_append.mp once
  have toldOnce := toldOnce.of_map
  have fits : (m.found (m.visits [] (tokens list))).length +
      ((m.visits [] (tokens list)).filterMap m.told).length ≤ m.maxTargets.toNat := by
    have length := perm.length_eq
    rw [List.length_append, List.length_map] at length
    rw [length]
    exact List.length_take_le _ _
  -- whoever is told something is one of the targets
  have resolves : ∀ p ∈ (m.visits [] (tokens list)).filterMap m.told, ∃ name ∈ tokens list,
      m.resolve name = some (.person p) := by
    intro p told
    have inside := perm.subset (List.mem_append_right _ (List.mem_map_of_mem told))
    exact List.mem_filterMap.mp (mem_firsts.mp (List.mem_of_mem_take inside))
  have silent : ∀ name, (name, true) ∈ m.visits [] (tokens list) → m.told (name, true) = none := by
    intro name repeated
    rw [Option.eq_none_iff_forall_not_mem]
    intro p tells
    have told : p ∈ (m.visits [] (tokens list)).filterMap m.told := List.mem_filterMap.mpr ⟨_, repeated, tells⟩
    have some_ : 0 < ((m.visits [] (tokens list)).filterMap m.told).length := List.length_pos_of_mem told
    have start : ((([] : List Target).length : ℕ) : ℤ) < m.maxTargets := by
      rw [List.length_nil]
      omega
    rcases visits_end start (tokens list) with ⟨all, -⟩ | full
    · obtain ⟨other, member, resolved⟩ := resolves p told
      rw [← all, List.mem_map] at member
      obtain ⟨⟨other, again⟩, visited, rfl⟩ := member
      rcases resolve_eq_some.mp resolved with named | ⟨q, masked, same⟩
      · exact apart _ (mem_found.mpr ⟨_, visited, named⟩) _ (List.mem_map_of_mem told) rfl
      · obtain rfl := Target.person.inj same
        cases again with
        | true =>
          obtain ⟨t, named⟩ := named_of_repetition visited
          rw [masked_of_named named] at masked
          cases masked
        | false =>
          have tells' : m.told (other, false) = some p := (told_false leaf other).trans masked
          have same := eq_of_told toldOnce repeated visited tells tells'
          cases same
    · rw [List.length_nil] at full
      omega
  have told := byMask_eq leaf silent
  refine ⟨?_, fun name repeated => ?_, ?_⟩
  · by_cases room : 1 ≤ m.maxTargets
    · exact .inl room
    · right
      exact nobody_of_nil leaf (List.length_eq_zero_iff.mp (by omega)) (List.length_eq_zero_iff.mp (by omega))
  · refine (quiet_iff name).mpr ⟨silent name repeated, fun nick said => ?_⟩
    obtain ⟨t, named⟩ := named_of_repetition repeated
    have entry : (name, .noSuchNick nick) ∈
        (m.visits [] (tokens list)).flatMap fun v => ((m.said v).map (v.1, ·)).toList :=
      List.mem_flatMap.mpr ⟨_, repeated, by simp [said]⟩
    have none_ := replies name nick entry
    rw [resolve_eq_some.mpr (.inl named)] at none_
    cases none_
  · rw [← told]
    by_cases none_ : (m.visits [] (tokens list)).filterMap m.told = []
    · exact .inl none_
    · refine .inr ⟨toldOnce, fun p masked inTable => ?_, ?_⟩
      · exact apart _ inTable _ (List.mem_map_of_mem masked) rfl
      · have some_ : 0 < ((m.visits [] (tokens list)).filterMap m.told).length := List.length_pos_iff.mpr none_
        omega

theorem Plain.right (leaf : m.net.lazyLeaf = false) {list text : List Char} (nonempty : text ≠ [])
    (plain : m.Plain list) : m.Right list text := by
  obtain ⟨receivers, log⟩ := mMessage_eq leaf list nonempty
  refine ⟨?_, fun name nick entry => ?_⟩
  · rw [receivers]
    exact plain.perm leaf
  · rw [log] at entry
    obtain ⟨⟨other, repeated⟩, visited, entry⟩ := List.mem_flatMap.mp entry
    rw [Option.mem_toList, Option.map_eq_some_iff] at entry
    obtain ⟨act, said_, same⟩ := entry
    obtain ⟨rfl, rfl⟩ := Prod.mk.inj same
    cases repeated with
    | true => exact absurd said_ (((quiet_iff other).mp (plain.repetitions other visited)).2 nick)
    | false =>
      cases named : m.named other with
      | some t => simp [said, named] at said_
      | none =>
        have missing_ : m.missing other = some (.noSuchNick nick) := by simpa [said, named] using said_
        have masked : m.masked other = none := by
          rw [← (turn_of_unnamed leaf named).2, missing_]
          rfl
        rw [resolve_of_masked_none masked, named]

end Command

end Ircd.Message
