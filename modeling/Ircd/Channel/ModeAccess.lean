import Ircd.Channel.ModeSteps

/-!
# Who can make ops

A letter of MODE gives the rank of an op, or takes it, only with the access of an op. A local
client has that access by its rank alone, so MODEs by clients who are not ops leave the ops as
they are, however many there are.
-/
namespace Ircd.Chan

/-- A move among the ops, or among the others, makes nobody an op and takes it from nobody. -/
theorem Channel.isChanOp_changeMembership (ch : Channel) {toRank : Rank} {targ : ClientId}
    (same : ch.isChanOp targ = decide (toRank = .chanop ∨ toRank = .chanopVoiced)) (mine : Bool) (u : ClientId) :
    (ch.changeMembership toRank targ mine).isChanOp u = ch.isChanOp u := by
  cases found : Lists.find ch.members changeOrder targ with
  | none => simp only [Channel.isChanOp, Channel.changeMembership, found]
  | some r =>
    have on := Lists.mem_of_find found
    by_cases stays : r = toRank
    · simp only [Channel.isChanOp, Channel.changeMembership, found, if_pos stays]
    · simp only [Channel.isChanOp, Channel.changeMembership, found, if_neg stays, Lists.add, Lists.delete,
        Function.update_apply] at same ⊢
      by_cases self : u = targ
      · subst self
        cases r <;> cases toRank <;> simp_all
      · cases r <;> cases toRank <;> simp [self, List.mem_erase_of_ne self]

/-- The same clients are ops. -/
def Channel.SameOps (ch ch' : Channel) : Prop := ∀ u, ch'.isChanOp u = ch.isChanOp u

theorem Channel.SameMembers.ops {ch ch' : Channel} (same : ch.SameMembers ch') : ch.SameOps ch' := by
  intro u
  rw [Channel.isChanOp, same.1]
  rfl

/-- Without the access of an op no letter gives that rank or takes it. -/
theorem Change.sameOps {x : ModeContext} (access : x.alev < chaccessChanop) {dir : Dir} {r : ModeRun} {c : Char}
    {y : Changes} (change : Change x dir r c y) : r.changes.ch.SameOps y.ch := by
  have same : r.changes.ch.SameOps r.changes.ch := fun _ => rfl
  cases change with
  | op targets checked new =>
    rw [opTarget, if_pos access] at checked
    cases checked
  | halfop targets checked new =>
    intro u
    have noOp : r.changes.ch.isChanOp _ = false := new.elim (·.2.1) (·.2.1)
    unfold Changes.halfop
    split
    · dsimp only
      split
      · exact Channel.isChanOp_changeMembership _ (by simp [noOp]) _ u
      · rfl
    · exact Channel.isChanOp_changeMembership _ (by simp [noOp]) _ u
  | voice targets checked noHalfop new =>
    intro u
    unfold Changes.voice
    split <;> refine Channel.isChanOp_changeMembership _ ?_ _ u <;> split <;> simp [*]
  | mask given read done =>
    rcases Changes.mask_cases done with rfl | ⟨ban, n, -, rfl⟩ | ⟨mask, n, -, -, rfl⟩
    · exact same
    · rw [Changes.record_ch]
      exact (Channel.sameMembers_setMasks ..).ops
    · rw [Changes.record_ch]
      exact (Channel.sameMembers_setMasks ..).ops
  | flag =>
    unfold Changes.flag
    split <;> dsimp only <;> (try split) <;> first | exact same | (rw [Changes.record_ch]; exact same)
  | dropLimit =>
    unfold Changes.dropLimit
    split <;> first | exact same | (rw [Changes.record_ch]; exact same)
  | dropKey =>
    unfold Changes.dropKey
    split <;> exact same
  | _ => exact same

/-- However many MODEs local clients give who are not ops, nobody becomes an op by them, and no op is deopped. -/
theorem State.modes_sameOps {s s' : State} {ms : List ModeCommand}
    (mine : ∀ m ∈ ms, (s.client m.source).mine = true)
    (noOps : ∀ m ∈ ms, (s.channel m.chptr).isChanOp m.source = false) (done : ms.foldlM State.mode s = some s')
    (chptr : ChannelId) : (s.channel chptr).SameOps (s'.channel chptr) := by
  induction ms generalizing s with
  | nil =>
    cases done
    exact fun _ => rfl
  | cons m ms ih =>
    obtain ⟨t, first, rest⟩ := Option.bind_eq_some_iff.mp done
    obtain ⟨y, letters, rfl⟩ := Option.map_eq_some_iff.mp first
    obtain ⟨r, read, rfl⟩ := Option.map_eq_some_iff.mp letters
    have access : (m.context s).alev < chaccessChanop := by
      simp only [ModeCommand.context, State.getChannelAccess, mine m (by simp), noOps m (by simp), Bool.not_true,
        Bool.false_eq_true, if_false]
      split <;> decide
    have ops : (s.channel m.chptr).SameOps r.changes.ch :=
      readLetters_keeps (P := fun y => (s.channel m.chptr).SameOps y.ch)
        (fun _ _ _ _ change before u => (change.sameOps access u).trans (before u)) read fun _ => rfl
    have step : ∀ c, (s.channel c).SameOps ((s.setChannel m.chptr r.changes.ch).channel c) := by
      intro c
      by_cases here : c = m.chptr
      · subst here
        rw [State.setChannel_channel]
        exact ops
      · rw [State.setChannel_channel_ne s _ here]
        exact fun _ => rfl
    intro u
    refine (ih (s := s.setChannel m.chptr r.changes.ch) (fun m' member => mine m' (by simp [member]))
      (fun m' member => ?_) rest u).trans (step chptr u)
    rw [step, noOps m' (by simp [member])]

/-- The local halfop 3 and the op 2 are on the channel 0. -/
def localHalfopNetwork : State :=
  { smallNetwork with
    client
      | 2 => { smallNetwork.client 2 with user := some ⟨[0], 1, []⟩ }
      | 3 => { smallNetwork.client 3 with user := some ⟨[0], 1, []⟩ }
      | who => smallNetwork.client who
    channel := fun _ =>
      { smallNetwork.channel 0 with
        members := Lists.add (Lists.add (fun _ => []) .halfop 3) .chanop 2
        users := 2 } }

theorem localHalfopNetwork_sameOps :
    ∃ s', [(⟨3, 3, 0, [['-', 'o', '+', 'v'], ['b'], ['c']]⟩ : ModeCommand)].foldlM State.mode
      localHalfopNetwork = some s' ∧ (localHalfopNetwork.channel 0).SameOps (s'.channel 0) :=
  (Option.isSome_iff_exists.mp (by decide)).imp fun _ done =>
    ⟨done, State.modes_sameOps (by decide) (by decide) done 0⟩

end Ircd.Chan
