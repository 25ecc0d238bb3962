import Ircd.Channel.OldServer

/-!
# The lines that a server without halfops is sent

It reads the nicks of a relayed SJOIN as they were read here, with the rules for the timestamps that
were applied here, and the lines of a burst rank after rank. So whoever is an op on one side is one on the other.
-/
namespace Ircd.Chan

/-! ### The relayed line -/

theorem cutNicks_noSpace {nick text : List Char} (noSpace : ' ' ∉ nick) : ∀ piece ∈ cutNicks nick text, ' ' ∉ piece := by
  induction text generalizing nick with
  | nil => simpa [cutNicks] using noSpace
  | cons c text ih =>
    rw [cutNicks]
    split
    · split
      · simpa using noSpace
      · intro piece member
        rcases List.mem_cons.mp member with rfl | later
        · exact noSpace
        · exact ih (by simp) piece later
    next other =>
      exact ih (by simp [noSpace, Ne.symm other])

theorem State.Addressed.toldNick_spaced {s : State} (addressed : s.Addressed) {nick : List Char}
    (noSpace : ' ' ∉ nick) (known : s.knowsNick nick = true) (keepNewModes : Bool) :
    toldNick keepNewModes nick ≠ [] ∧ ' ' ∉ toldNick keepNewModes nick := by
  obtain ⟨target, found⟩ := Option.isSome_iff_exists.mp known
  obtain ⟨nonempty, stop⟩ := addressed.unprefixed found
  obtain ⟨before, two, all, split⟩ := readPrefixes_split nick
  unfold toldNick
  generalize (readPrefixes true nick).nick = rest at nonempty stop split
  subst split
  rw [readPrefixes_append two all stop]
  refine ⟨fun empty => nonempty (List.append_eq_nil_iff.mp empty).2, fun space => ?_⟩
  rcases List.mem_append.mp space with inPrefix | inNick
  · dsimp only at inPrefix
    split at inPrefix
    · obtain ⟨c, member, equal⟩ := List.mem_map.mp inPrefix
      have isPrefix := isPrefixChar_iff.mp (all c member)
      rcases isPrefix with rfl | rfl | rfl <;> exact absurd equal (by decide)
    · cases inPrefix
  · exact noSpace (List.mem_append_right _ inNick)

/-- The nicks that the other side reads from the line. -/
theorem State.Addressed.sjoinNicks_relayed {s : State} (addressed : s.Addressed) {nicks : List (List Char)}
    (noSpace : ∀ nick ∈ nicks, ' ' ∉ nick) (some : nicks.filter s.knowsNick ≠ []) (keepNewModes : Bool) :
    sjoinNicks (' ' :: (nicks.filter s.knowsNick).flatMap (shownNick false keepNewModes)) =
      (nicks.filter s.knowsNick).map (toldNick keepNewModes) := by
  have text : (nicks.filter s.knowsNick).flatMap (shownNick false keepNewModes) =
      ((nicks.filter s.knowsNick).map (toldNick keepNewModes)).flatMap (· ++ [' ']) := by
    rw [List.flatMap_map]
    refine List.flatMap_congr fun nick _ => ?_
    rw [← (readPrefixes_shown keepNewModes nick).2, readPrefixes_nick]
    rfl
  have each : ∀ told ∈ (nicks.filter s.knowsNick).map (toldNick keepNewModes), told ≠ [] ∧ ' ' ∉ told := by
    intro told member
    obtain ⟨nick, inside, rfl⟩ := List.mem_map.mp member
    obtain ⟨listed, known⟩ := List.mem_filter.mp inside
    exact addressed.toldNick_spaced (noSpace nick listed) known keepNewModes
  have skip : ∀ line, sjoinNicks (' ' :: line) = sjoinNicks line := by
    intro line
    unfold sjoinNicks
    rw [List.dropWhile_cons_of_pos (by decide)]
  rw [text, skip, sjoinNicks_spaced (by simpa using some) each]

/-- The same timestamp rules there. -/
theorem tsRules_relayed {users newts oldts : ℤ} {nicks : List Char} {verdict : Verdict}
    (rules : tsRules false users nicks newts oldts = some verdict) (somebody : users ≠ 0) (nicks' : List Char) :
    tsRules false 1 nicks' verdict.tstosend oldts =
      some ⟨verdict.channelts, verdict.channelts, verdict.keepOurModes, true⟩ := by
  unfold tsRules at rules ⊢
  simp only [Bool.false_eq_true, if_false, somebody, false_and, one_ne_zero] at rules ⊢
  split at rules
  · cases rules
    simp
  next zero =>
    rw [not_or] at zero
    split at rules
    · cases rules
      simp [zero.2]
    · split at rules
      · cases rules
        simp_all
      · cases rules
        simp [zero.2]

/-! ### The two sides -/

/-- What every line and every MODE keeps. -/
structure Sides.Held (c : ChannelId) (x : Sides) : Prop where
  intact : x.state.Intact
  addressed : x.state.Addressed
  old : c < x.state.nextChannel
  right : x.Right c
  time : x.shown.ts =
    if Lists.all (x.state.channel c).members = [] then none else some (x.state.channel c).channelts

/-- A SJOIN takes no voiced local op his rank, and no nick of it is told with an `@` who does not become, or stay,
an op or a halfop. -/
def SjoinStart.fits (start : SjoinStart) (s : State) (clientP : ClientId) : Bool :=
  (start.verdict.keepOurModes || ((s.channel start.chptr).locMembers .chanopVoiced).isEmpty) &&
    (!start.verdict.keepNewModes ||
      nicksFit clientP start.chptr start.top ⟨start.state, [], [], 0, []⟩ (sjoinNicks start.head.nicks))

theorem State.Intact.occupied {s : State} (intact : s.Intact) {c : ChannelId} (old : c < s.nextChannel) :
    s.Occupied c := by
  have channel := intact.channels c old
  refine ⟨by rw [channel.users]; exact Int.natCast_nonneg _, ?_⟩
  rintro ⟨u, on⟩
  rw [channel.users]
  exact_mod_cast List.length_pos_of_mem ((channel.back u).mp on)

/-- What stands in the line behind the header, and what the server has done. -/
theorem SjoinStart.relayed {start : SjoinStart} {clientP source : ClientId} {parv : List (List Char)}
    {hops nhops : List Char}
    (relayed : (start.state.sjoinMembers clientP source parv start.head start.chptr start.top
      start.verdict).relay = some (hops, nhops)) :
    nhops.drop (start.header source parv).length = ' ' ::
        ((sjoinNicks start.head.nicks).filter start.state.knowsNick).flatMap
          (shownNick false start.verdict.keepNewModes) ∧
      (start.state.sjoinMembers clientP source parv start.head start.chptr start.top start.verdict).state =
        ((sjoinNicks start.head.nicks).foldl
          (nickStep clientP start.chptr start.top start.verdict.keepNewModes) ⟨start.state, [], [], 0, []⟩).state ∧
      0 < (sjoinNicks start.head.nicks).countP (start.state.acceptsNick clientP) := by
  have round := nickLoop_round clientP start.chptr start.top start.verdict.keepNewModes
    (sjoinNicks start.head.nicks) ⟨start.state, [], [], 0, []⟩
  obtain ⟨-, told, -⟩ := nickLoop_lists clientP start.chptr start.top start.verdict.keepNewModes
    (sjoinNicks start.head.nicks) ⟨start.state, [], [], 0, []⟩
  unfold State.sjoinMembers at relayed ⊢
  dsimp only at relayed told ⊢
  split at relayed
  · cases relayed
  next short =>
    rw [if_neg short]
    split at relayed
    · cases relayed
    next somebody =>
      rw [not_or] at somebody
      obtain ⟨rfl, rfl⟩ := Prod.mk.inj (Option.some.inj relayed)
      refine ⟨?_, rfl, ?_⟩
      · rw [told, SjoinStart.header, List.append_assoc, List.drop_left]
        rfl
      · have people := round.people
        have some := somebody.1
        dsimp only at people
        omega

section Message

variable {x y : Sides} {c : ChannelId}

/-- When the loop begins, the two sides agree again: the line tells the other side what the verdict is. -/
theorem Sides.Held.judged (held : x.Held c) {source clientP : ClientId} {parv : List (List Char)} {start : SjoinStart}
    (started : x.state.sjoinStart source parv = some start) (here : start.chptr = c)
    (fits : start.fits x.state clientP = true) (nicks : List Char) :
    start.state.Intact ∧ start.state.Addressed ∧ c < start.state.nextChannel ∧
      ∃ verdict, tsRules x.shown.ts.isNone 1 nicks start.verdict.tstosend (x.shown.ts.getD 0) = some verdict ∧
        verdict.channelts = (start.state.channel c).channelts ∧ verdict.keepNewModes = true ∧
        Sides.Right c ⟨start.state,
          ⟨some verdict.channelts, if verdict.keepOurModes then x.shown.op else fun _ => false⟩⟩ := by
  obtain ⟨s₂, isnew, entered, rules, state⟩ := State.sjoinStart_entered started
  obtain ⟨client, table⟩ := State.sjoinStart_clients started
  obtain ⟨sound, old, client₂, -, ⟨root, list, id, found⟩, -⟩ := entered.cases held.intact.sound
  have intact₂ := entered.intact held.intact
  rw [here] at old rules found state
  -- the channel has been there
  obtain ⟨rfl, equal⟩ : isnew = false ∧ s₂.channel c =
      { x.state.channel c with rootChptr := root, vchanList := list, vchanId := id } := by
    rcases found with ⟨fresh, -, equal⟩ | ⟨-, -, next, -⟩
    · exact ⟨fresh, equal⟩
    · exact absurd held.old (next ▸ lt_irrefl _)
  have members : (s₂.channel c).members = (x.state.channel c).members := by rw [equal]
  have locMembers : (s₂.channel c).locMembers = (x.state.channel c).locMembers := by rw [equal]
  have channelts : (s₂.channel c).channelts = (x.state.channel c).channelts := by rw [equal]
  have spared : start.verdict.keepOurModes = false → (s₂.channel c).locMembers .chanopVoiced = [] := by
    intro lost
    unfold SjoinStart.fits at fits
    rw [lost, Bool.false_or, Bool.and_eq_true, here] at fits
    rw [locMembers]
    exact List.isEmpty_iff.mp fits.1
  have intact : start.state.Intact := by
    rw [state]
    exact intact₂.setChannel ((intact₂.channels c old).judged start.head.mode spared)
  have now : start.state.channel c = (s₂.channel c).judged start.verdict start.head.mode := by
    rw [state, State.setChannel_channel]
  have addressed : start.state.Addressed := by
    obtain ⟨found, nick, undotted, listed⟩ := held.addressed
    refine ⟨fun u member => ?_, fun u member => ?_, fun u member => ?_, fun u d isMember => ?_⟩
    · rw [State.findClient_congr client table, client]
      exact found u (table ▸ member)
    · rw [client]
      exact nick u (table ▸ member)
    · rw [client]
      exact undotted u (table ▸ member)
    · rw [table]
      refine listed u d ?_
      unfold State.isMember at isMember ⊢
      rwa [client] at isMember
  refine ⟨intact, addressed, by rw [state]; exact old, ?_⟩
  rw [now, Channel.judged_channelts]
  obtain ⟨known, shown⟩ := held.right
  have time := held.time
  have users := (held.intact.channels c held.old).users
  have users₂ : (s₂.channel c).users = (x.state.channel c).users := by rw [equal]
  by_cases empty : Lists.all (x.state.channel c).members = []
  · -- nobody has been told of the channel yet, and it has no ops
    rw [if_pos empty] at time
    have nobody : (s₂.channel c).users = 0 := by rw [users₂, users, empty]; rfl
    have verdict : start.verdict.channelts = start.verdict.tstosend := by
      unfold tsRules at rules
      rw [if_neg (by decide), nobody] at rules
      split at rules
      · rw [← Option.some.inj rules]
      · rw [if_pos rfl] at rules
        cases rules
    rw [time]
    refine ⟨⟨start.verdict.tstosend, start.verdict.tstosend, true, true⟩, rfl, verdict.symm, rfl, ?_⟩
    have none : ∀ r, (x.state.channel c).members r = [] := fun r =>
      List.eq_nil_iff_forall_not_mem.mpr fun u member =>
        absurd (Lists.mem_all.mpr ⟨r, member⟩) (by rw [empty]; exact List.not_mem_nil)
    have noOp : ∀ u, (x.state.channel c).isChanOp u = false := fun u => by simp [Channel.isChanOp, none]
    have noHalfop : ∀ u, (x.state.channel c).isHalfOp u = false := fun u => by simp [Channel.isHalfOp, none]
    refine ⟨fun u shows => ?_, fun u isOp => ?_⟩
    · have before := known u shows
      rw [noOp, noHalfop] at before
      cases before
    · dsimp only at isOp
      rw [now] at isOp
      have none₂ : ∀ r, ((s₂.channel c).judged start.verdict start.head.mode).members r = [] := by
        intro r
        cases keep : start.verdict.keepOurModes with
        | true => rw [(Channel.judged_members _ keep).1, members, none]
        | false =>
          have locals : ∀ r, (x.state.channel c).locMembers r = [] := fun r =>
            List.eq_nil_iff_forall_not_mem.mpr fun u member => by
              have onList := ((held.intact.channels c held.old).locals.mem_iff.mp member).1
              rw [none] at onList
              cases onList
          unfold Channel.judged
          dsimp only
          rw [if_neg (by rw [keep]; decide)]
          cases r <;> simp [Channel.removeOurModes, members, locMembers, none, locals]
      simp [Channel.isChanOp, none₂] at isOp
  · rw [if_neg empty] at time
    have somebody : (s₂.channel c).users ≠ 0 := by
      rw [users₂, users]
      exact_mod_cast fun zero => empty (List.length_eq_zero_iff.mp zero)
    rw [channelts] at rules
    rw [time]
    refine ⟨_, tsRules_relayed rules somebody nicks, rfl, rfl, ?_⟩
    cases keep : start.verdict.keepOurModes with
    | true =>
      have same : (start.state.channel c).members = (x.state.channel c).members := by
        rw [now, (Channel.judged_members _ keep).1, members]
      rw [if_pos rfl]
      refine ⟨fun u shows => ?_, fun u isOp => ?_⟩
      · have before := known u shows
        unfold Channel.isChanOp Channel.isHalfOp at before ⊢
        rwa [same]
      · refine shown u ?_
        unfold Channel.isChanOp at isOp ⊢
        rwa [same] at isOp
    | false =>
      rw [if_neg (by decide)]
      refine ⟨fun u shows => absurd shows (by simp), fun u isOp => ?_⟩
      dsimp only at isOp
      rw [now] at isOp
      unfold Channel.judged at isOp
      dsimp only at isOp
      rw [if_neg (by rw [keep]; decide)] at isOp
      simp [Channel.isChanOp, Channel.removeOurModes] at isOp

/-- A SJOIN that is relayed. -/
theorem Sides.Held.sjoin (held : x.Held c) {peer : OldServer} {clientP source : ClientId} {parv : List (List Char)}
    (fits : ∀ start, x.state.sjoinStart source parv = some start → start.fits x.state clientP = true)
    (done : x.after peer c (.sjoin clientP source parv) = some y) : y.Held c := by
  unfold Sides.after at done
  dsimp only at done
  split at done
  next start hops nhops started relayed =>
    split at done
    next here =>
      obtain ⟨-, here⟩ := here
      obtain rfl := Option.some.inj done
      obtain ⟨start', started', run⟩ := State.msSjoin_start relayed
      obtain rfl : start' = start := Option.some.inj (started'.symm.trans started)
      rw [run] at relayed ⊢
      obtain ⟨line, state, some⟩ := SjoinStart.relayed relayed
      obtain ⟨intact, addressed, old, verdict, rules, channelts, keepsNew, right⟩ :=
        held.judged started here (fits _ started) (nhops.drop (start'.header source parv).length)
      obtain ⟨client, table⟩ := State.sjoinStart_clients started
      have knows : x.state.knowsNick = start'.state.knowsNick := by
        funext nick
        unfold State.knowsNick
        rw [State.findClient_congr client table]
      have known : (sjoinNicks start'.head.nicks).filter start'.state.knowsNick ≠ [] := by
        obtain ⟨nick, listed, accepted⟩ := List.countP_pos_iff.mp some
        refine List.ne_nil_of_mem (List.mem_filter.mpr ⟨listed, ?_⟩)
        unfold State.acceptsNick at accepted
        unfold State.knowsNick
        cases found : start'.state.findClient (readPrefixes true nick).nick with
        | none =>
          rw [found] at accepted
          cases accepted
        | some target => rfl
      -- the other side reads the nicks that are known here
      have spaceless : ∀ nick ∈ sjoinNicks start'.head.nicks, ' ' ∉ nick := cutNicks_noSpace (by simp)
      have read := addressed.sjoinNicks_relayed spaceless known start'.verdict.keepNewModes
      rw [← line] at read
      have rounds := nickLoop_round clientP c start'.top start'.verdict.keepNewModes
        (sjoinNicks start'.head.nicks) ⟨start'.state, [], [], 0, []⟩
      unfold Shown.sjoin
      rw [rules, state, here]
      dsimp only
      have enter : Shown.enter x.state = Shown.enter start'.state := by
        funext keepNewModes v nick
        unfold Shown.enter
        simp only [State.findClient_congr client table]
      rw [keepsNew, enter]
      rw [read]
      refine ⟨intact.nickLoop old clientP start'.top _ _, ?_, ?_, ?_, ?_⟩
      · refine rounds.joins.addressed addressed (nickLoop_listed intact old ?_ _)
        exact fun u => addressed.listed u c
      · rw [rounds.joins.same]
        exact old
      · refine right_nickLoop addressed (State.Joins.refl _ _) (fun keeps => ?_) right
        have fit := fits _ started
        unfold SjoinStart.fits at fit
        rw [keeps, Bool.not_true, Bool.false_or, here, Bool.and_eq_true] at fit
        exact fit.2
      · rw [foldl_enter_ts]
        have users := (rounds.occupied (intact.occupied old)).2 some
        have counted := ((intact.nickLoop old clientP start'.top start'.verdict.keepNewModes
          (sjoinNicks start'.head.nicks)).channels c (by rw [rounds.joins.same]; exact old)).users
        have somebody : Lists.all (((sjoinNicks start'.head.nicks).foldl
            (nickStep clientP c start'.top start'.verdict.keepNewModes)
            ⟨start'.state, [], [], 0, []⟩).state.channel c).members ≠ [] := by
          intro empty
          rw [counted, empty] at users
          exact absurd users (by decide)
        obtain ⟨_, _, _, _, _, here'⟩ := rounds.joins.here
        rw [if_neg somebody, here', ← channelts]
    · cases done
  · cases done

end Message

/-! ### The burst -/

/-- The prefix of a member in a burst to the old server. -/
def oldFlagOf : Rank → List Char
  | .chanop => ['@']
  | .chanopVoiced => ['@', '+']
  | .halfop => ['@']
  | .voiced => ['+']
  | .peon => []

theorem oldFlagOf_spec (r : Rank) : (oldFlagOf r).length ≤ 2 ∧ (∀ c ∈ oldFlagOf r, isPrefixChar c = true) ∧
    ' ' ∉ oldFlagOf r ∧
    (prefixFlags (oldFlagOf r) &&& modeChanop ≠ 0 ↔ r.letters.o = true ∨ r.letters.h = true) := by
  have flags : prefixFlags (oldFlagOf r) &&& modeChanop ≠ 0 ↔ r.letters.o = true ∨ r.letters.h = true := by
    cases r <;> decide
  have plain : (∀ c ∈ oldFlagOf r, isPrefixChar c = true) ∧ ' ' ∉ oldFlagOf r := by
    cases r <;> simp [oldFlagOf, isPrefixChar]
  have short : (oldFlagOf r).length ≤ 2 := by
    cases r <;> decide
  exact ⟨short, plain.1, plain.2, flags⟩

section Burst

variable {s : State} {c : ChannelId} {v : Shown}

theorem State.Addressed.foldl_enter_flag (addressed : s.Addressed) (r : Rank) {whos : List ClientId}
    (listed : ∀ who ∈ whos, who ∈ s.clientTable) (u : ClientId) :
    (((whos.map fun who => (s.client who).name).map (oldFlagOf r ++ ·)).foldl (Shown.enter s true) v).op u =
      (v.op u || decide (u ∈ whos) && (r.letters.o || r.letters.h)) := by
  induction whos generalizing v with
  | nil => simp
  | cons who whos ih =>
    have member := listed who List.mem_cons_self
    obtain ⟨two, all, -, flags⟩ := oldFlagOf_spec r
    have stop : Unprefixed (s.client who).name := (addressed.unprefixed (addressed.found who member)).2
    have first : v.enter s true (oldFlagOf r ++ (s.client who).name) =
        if r.letters.o = true ∨ r.letters.h = true then v.setOp who true else v := by
      unfold Shown.enter
      rw [readPrefixes_append two all stop]
      dsimp only
      rw [addressed.found who member]
      dsimp only
      exact if_congr ((and_iff_right rfl).trans flags) rfl rfl
    rw [List.map_cons, List.map_cons, List.foldl_cons, first,
      ih fun u inside => listed u (List.mem_cons_of_mem who inside)]
    by_cases self : u = who
    · subst self
      cases r <;> simp [Rank.letters]
    · cases r <;> simp [Rank.letters, self]

/-- A line of the burst. -/
theorem State.Addressed.sjoin_line (addressed : s.Addressed) (r : Rank) {whos : List ClientId} (some : whos ≠ [])
    (listed : ∀ who ∈ whos, who ∈ s.clientTable) {ts : ℤ} (time : v.ts = none ∨ v.ts = Option.some ts) :
    (v.sjoin s ts (nickText (oldFlagOf r) (whos.map fun who => (s.client who).name))).ts = Option.some ts ∧
      ∀ u, (v.sjoin s ts (nickText (oldFlagOf r) (whos.map fun who => (s.client who).name))).op u =
        (v.op u || decide (u ∈ whos) && (r.letters.o || r.letters.h)) := by
  have nicks := sjoinNicks_nickText (oldFlagOf_spec r).2.2.1
    (show (whos.map fun who => (s.client who).name) ≠ [] by simpa using some) fun name member => by
      obtain ⟨who, inside, rfl⟩ := List.mem_map.mp member
      exact addressed.nick who (listed who inside)
  have rules : ∀ nicks, tsRules v.ts.isNone 1 nicks ts (v.ts.getD 0) = Option.some ⟨ts, ts, true, true⟩ := by
    intro nicks
    rcases time with time | time
    · rw [time]
      rfl
    · rw [time]
      unfold tsRules
      by_cases zero : ts = 0 <;> simp [zero]
  unfold Shown.sjoin
  rw [rules]
  dsimp only
  rw [nicks, foldl_enter_ts, if_pos rfl]
  exact ⟨rfl, addressed.foldl_enter_flag r listed⟩

/-- The lines of a list of members. -/
theorem State.Addressed.foldl_lines (addressed : s.Addressed) (r : Rank) {header : List Char} {ts : ℤ}
    {chunks : List (List ClientId)} (some : ∀ chunk ∈ chunks, chunk ≠ [])
    (listed : ∀ who ∈ chunks.flatten, who ∈ s.clientTable) (time : v.ts = none ∨ v.ts = Option.some ts) :
    let v' := (chunks.map fun chunk => header ++ nickText (oldFlagOf r) (chunk.map fun who => (s.client who).name)).foldl
      (fun v line => v.sjoin s ts (line.drop header.length)) v
    v'.ts = (if chunks.flatten = [] then v.ts else Option.some ts) ∧
      ∀ u, v'.op u = (v.op u || decide (u ∈ chunks.flatten) && (r.letters.o || r.letters.h)) := by
  induction chunks generalizing v with
  | nil => simp
  | cons chunk chunks ih =>
    have nonempty := some chunk List.mem_cons_self
    obtain ⟨first, ops⟩ := addressed.sjoin_line (v := v) r nonempty
      (fun who inside => listed who (by simp [inside])) time
    obtain ⟨last, ops'⟩ := ih (v := v.sjoin s ts (nickText (oldFlagOf r) (chunk.map fun who => (s.client who).name)))
      (fun chunk' inside => some chunk' (List.mem_cons_of_mem chunk inside))
      (fun who inside => listed who (by
        rw [List.flatten_cons]
        exact List.mem_append_right _ inside))
      (Or.inr first)
    rw [List.map_cons, List.foldl_cons, List.drop_left]
    refine ⟨?_, fun u => ?_⟩
    · rw [last, first, ite_self, if_neg (by simp [nonempty])]
    · rw [ops', ops]
      simp only [List.flatten_cons, List.mem_append, Bool.decide_or, Bool.or_assoc, Bool.and_or_distrib_right]

/-- The members of a list, as the burst sends them. -/
theorem State.Addressed.sendMembers (addressed : s.Addressed) (short : s.meName.length ≤ hostLen) (ch : Channel) (r : Rank)
    (listed : ∀ who ∈ ch.members r, who ∈ s.clientTable) (time : v.ts = none ∨ v.ts = Option.some ch.channelts) :
    let header := sjoinHeader s.meName ch.channelts ch.chname ch.mode.letters (ch.mode.params true)
    let v' := (s.sendMembers ch.mode.letters (ch.mode.params true) ch (ch.members r) (oldFlagOf r)).foldl
      (fun v line => v.sjoin s ch.channelts (line.drop header.length)) v
    v'.ts = (if ch.members r = [] then v.ts else Option.some ch.channelts) ∧
      ∀ u, v'.op u = (v.op u || decide (u ∈ ch.members r) && (r.letters.o || r.letters.h)) := by
  have header : (sjoinHeader s.meName ch.channelts ch.chname ch.mode.letters (ch.mode.params true)).length ≤ 331 := by
    have length := length_sjoinHeader s.meName ch.channelts ch.chname ch.mode.letters (ch.mode.params true)
    have chname := ch.chname_len
    have letters := ch.mode.length_letters_le
    have params := ch.mode.length_params_le true
    unfold hostLen at short
    unfold channelLen at chname
    omega
  have empty : nickText (oldFlagOf r) (([] : List ClientId).map fun who => (s.client who).name) = [] := rfl
  obtain ⟨chunks, flat, lines, equal⟩ := sendLoop_lines header (oldFlagOf_spec r).1
    (fun who => (s.client who).name) (fun who => (s.client who).name_len) (ch.members r) []
    (by rw [empty, List.append_nil]; unfold bufSize; omega)
  rw [empty] at equal
  dsimp only
  unfold State.sendMembers
  rw [equal, ← List.nil_append (ch.members r), ← flat]
  exact addressed.foldl_lines r (fun chunk inside => (lines chunk inside).1)
    (fun who inside => listed who (by rwa [flat] at inside)) time

/-- Behind the burst the two sides agree. -/
theorem held_burst (intact : s.Intact) (addressed : s.Addressed) (old : c < s.nextChannel)
    (hash : (s.channel c).chname.head? = some '#') (short : s.meName.length ≤ hostLen) :
    Sides.Held c ⟨s, s.burstShown c⟩ := by
  have listed : ∀ r, ∀ who ∈ (s.channel c).members r, who ∈ s.clientTable := fun r who member =>
    addressed.listed who c (decide_eq_true (((intact.channels c old).back who).mpr (Lists.mem_all.mpr ⟨r, member⟩)))
  have sent := fun r (v : Shown) (time : v.ts = none ∨ v.ts = some (s.channel c).channelts) =>
    addressed.sendMembers (v := v) short (s.channel c) r (listed r) time
  have burst : (s.burstShown c).ts =
        (if Lists.all (s.channel c).members = [] then none else some (s.channel c).channelts) ∧
      ∀ u, (s.burstShown c).op u =
        Rank.all.any fun r => decide (u ∈ (s.channel c).members r) && (r.letters.o || r.letters.h) := by
    unfold State.burstShown State.tsBurstChannel
    dsimp only
    rw [if_neg (by simp [hash]), List.foldl_append, List.foldl_append, List.foldl_append, List.foldl_append]
    -- list after list
    have step : ∀ (r : Rank) (v : Shown), (v.ts = none ∨ v.ts = some (s.channel c).channelts) → ∀ w : Shown,
        w = (s.sendMembers (s.channel c).mode.letters ((s.channel c).mode.params true) (s.channel c)
          ((s.channel c).members r) (oldFlagOf r)).foldl (fun v line => v.sjoin s (s.channel c).channelts (line.drop
            (sjoinHeader s.meName (s.channel c).channelts (s.channel c).chname (s.channel c).mode.letters
              ((s.channel c).mode.params true)).length)) v →
        (w.ts = none ∨ w.ts = some (s.channel c).channelts) ∧
          w.ts = (if (s.channel c).members r = [] then v.ts else some (s.channel c).channelts) ∧
          ∀ u, w.op u = (v.op u || decide (u ∈ (s.channel c).members r) && (r.letters.o || r.letters.h)) := by
      rintro r v time w rfl
      obtain ⟨ts, op⟩ := sent r v time
      refine ⟨?_, ts, op⟩
      rw [ts]
      split
      · exact time
      · exact Or.inr rfl
    obtain ⟨time₁, ts₁, op₁⟩ := step .chanop .nothing (Or.inl rfl) _ rfl
    obtain ⟨time₂, ts₂, op₂⟩ := step .chanopVoiced _ time₁ _ rfl
    obtain ⟨time₃, ts₃, op₃⟩ := step .halfop _ time₂ _ rfl
    obtain ⟨time₄, ts₄, op₄⟩ := step .voiced _ time₃ _ rfl
    obtain ⟨-, ts₅, op₅⟩ := step .peon _ time₄ _ rfl
    refine ⟨ts₅.trans ?_, fun u => (op₅ u).trans ?_⟩
    · rw [ts₄, ts₃, ts₂, ts₁, Lists.all_eq]
      simp only [List.append_eq_nil_iff]
      split_ifs <;> simp_all [Shown.nothing]
    · rw [op₄, op₃, op₂, op₁]
      simp [Rank.all, Shown.nothing, Bool.or_assoc]
  refine ⟨intact, addressed, old, ⟨fun u shows => ?_, fun u isOp => ?_⟩, burst.1⟩
  · rw [burst.2] at shows
    simpa [Rank.all, Rank.letters, Channel.isChanOp, Channel.isHalfOp, or_assoc] using shows
  · rw [burst.2]
    have ops : u ∈ (s.channel c).members .chanop ∨ u ∈ (s.channel c).members .chanopVoiced := by
      simpa [Channel.isChanOp] using isOp
    rcases ops with op | op <;> simp [Rank.all, Rank.letters, op]

end Burst

end Ircd.Chan
