import Ircd.Split.Removal

/-!
# What another server makes of a split

A link is told of all users and of the servers that its mask does not cover. It takes the name of a
server that it was not told of for its own link to us, which has the mask for a name, and what hangs
on such a server hangs there.
-/
namespace Ircd.Split

open Chan (ClientId hostLen ircMatch)
open Relation (ReflTransGen)

variable {s t : State} {who server : ClientId} {mask comment me : List Char} {qs : Bool}
  {f : Forest ClientId}

/-! ### The receiver -/

/-- The name of the server is not covered by the mask. -/
def State.Visible (s : State) (mask : List Char) (y : ClientId) : Prop :=
  (s.client y).status = .server ∧ ircMatch mask (s.client y).name = false

/-- What a link with this mask has been told of. -/
def State.told (s : State) (mask : List Char) : Set ClientId :=
  {x | x ∈ s.globalClientList ∧ ((s.client x).isPerson = true ∨ s.Visible mask x)}

/-- The first hangs on the second, as the receiver sees it. -/
def State.Hangs (s : State) (mask : List Char) (x y : ClientId) : Prop :=
  (s.client x).servptr = some y ∧ y ∈ s.told mask

/-- A QUIT drops the client of that name, a SQUIT the server and what hangs on it. -/
def State.Drops (s : State) (mask : List Char) (x : ClientId) : Msg → Prop
  | .quit name _ => (s.client x).isPerson = true ∧ IrcEq (s.client x).name name
  | .squit name _ | .squitFrom _ name _ =>
    ∃ y ∈ s.told mask, (s.client y).status = .server ∧ IrcEq (s.client y).name name ∧
      ReflTransGen (s.Hangs mask) x y

/-- What is left of a view when the messages have been received. -/
def State.receive (s : State) (mask : List Char) (view : Set ClientId) (msgs : List Msg) :
    Set ClientId :=
  msgs.foldl (fun view msg => {x ∈ view | ¬ s.Drops mask x msg}) view

/-- The message names a server that the receiver was not told of. -/
def State.NamesHidden (s : State) (mask : List Char) : Msg → Prop
  | .quit _ _ => False
  | .squit name _ | .squitFrom _ name _ =>
    ∃ y ∈ s.globalClientList, (s.client y).status = .server ∧ IrcEq (s.client y).name name ∧
      y ∉ s.told mask

theorem State.mem_receive {view : Set ClientId} {msgs : List Msg} {x : ClientId} :
    x ∈ s.receive mask view msgs ↔ x ∈ view ∧ ∀ msg ∈ msgs, ¬ s.Drops mask x msg := by
  induction msgs generalizing view with
  | nil => simp [State.receive]
  | cons msg msgs ih =>
    have step : s.receive mask view (msg :: msgs) =
        s.receive mask {x ∈ view | ¬ s.Drops mask x msg} msgs := rfl
    rw [step, ih]
    simp only [Set.mem_ofPred_eq, List.forall_mem_cons, and_assoc]

/-! ### The network -/

/-- The links are their own `from`, names are different, and whoever has a server is on its lists. -/
structure State.Linked (s : State) : Prop where
  meName_len : s.meName.length ≤ hostLen
  nodup : s.servList.Nodup
  link : ∀ d ∈ s.servList, (s.client d).source = some d
  source : ∀ x d, (s.client x).source = some d → (s.client d).source = some d
  names : ∀ x ∈ s.globalClientList, ∀ y ∈ s.globalClientList,
    IrcEq (s.client x).name (s.client y).name → x = y
  listed : ∀ x ∈ s.globalClientList, ∀ y, (s.client x).servptr = some y → s.Below y x

/-- A tree of clients that are there. -/
structure State.Part (s : State) (server : ClientId) (f : Forest ClientId) : Prop where
  held : s.Holds server f
  once : f.postorder.Nodup
  plain : ∀ u ∈ f.leaves, (s.client u).serv = none
  present : ∀ x ∈ f.postorder, x ∈ s.globalClientList

section Part

variable {users : List ClientId} {below next : Forest ClientId}

theorem State.Part.under (part : s.Part server (.cons who users below next)) : s.Part who below where
  held := part.held.2.2.2.2.1
  once := by
    have once := part.once
    simp only [Forest.postorder, List.nodup_append] at once
    exact once.1.1
  plain u leaf := part.plain u (by simp [Forest.leaves, leaf])
  present x member := part.present x (by simp [Forest.postorder, member])

theorem State.Part.behind (part : s.Part server (.cons who users below next)) : s.Part server next where
  held := part.held.2.2.2.2.2
  once := by
    have once := part.once
    simp only [Forest.postorder, List.nodup_append, List.nodup_cons] at once
    exact once.2.1.2
  plain u leaf := part.plain u (by simp [Forest.leaves, leaf])
  present x member := part.present x (by simp [Forest.postorder, member])

/-- The first tree of the forest. -/
theorem State.Part.first (part : s.Part server (.cons who users below next)) :
    s.Part server (.cons who users below .nil) where
  held := by
    obtain ⟨status, hangs, lists, people, heldBelow, -⟩ := part.held
    exact ⟨status, hangs, lists, people, heldBelow, trivial⟩
  once := by
    have sub : (Forest.cons who users below .nil).postorder.Sublist
        (Forest.cons who users below next).postorder := by
      simp only [Forest.postorder]
      exact (List.Sublist.refl _).append (by simp)
    exact part.once.sublist sub
  plain u leaf := part.plain u (by
    simp only [Forest.leaves, List.append_nil, List.mem_append] at leaf ⊢
    tauto)
  present x member := part.present x (by
    simp only [Forest.postorder, List.mem_append, List.mem_cons, List.not_mem_nil, or_false] at member ⊢
    tauto)

end Part

/-- Whoever hangs on a server is below it. -/
theorem State.Linked.reached (linked : s.Linked) {x y : ClientId} (present : x ∈ s.globalClientList)
    (path : ReflTransGen (s.Hangs mask) x y) : ReflTransGen s.Below y x := by
  induction path using ReflTransGen.head_induction_on with
  | refl => exact .refl
  | head hangs _ ih => exact (ih hangs.2.1).tail (linked.listed _ present _ hangs.1)

theorem State.mem_told_of_server {y : ClientId} (status : (s.client y).status = .server) :
    y ∈ s.told mask ↔ y ∈ s.globalClientList ∧ ircMatch mask (s.client y).name = false := by
  unfold State.told State.Visible
  simp [Client.isPerson, status]

/-! ### What the messages drop -/

/-- Whom a message about a forest drops is in it. -/
theorem State.Part.dropped (part : s.Part server f) (linked : s.Linked) {msg : Msg}
    (sent : msg ∈ treeMsgs (fun x => (s.client x).name) me qs mask comment f) {x : ClientId}
    (present : x ∈ s.globalClientList) (drops : s.Drops mask x msg) : x ∈ f.postorder := by
  induction f generalizing server with
  | nil => cases sent
  | cons who users below next ihBelow ihNext =>
    have inFirst : x ∈ (Forest.cons who users below .nil).postorder →
        x ∈ (Forest.cons who users below next).postorder := by
      simp only [Forest.postorder, List.mem_append, List.mem_cons, List.not_mem_nil, or_false]
      tauto
    have ofQuits : msg ∈ users.map (fun u => Msg.quit (s.client u).name comment) →
        x ∈ (Forest.cons who users below next).postorder := by
      intro quit
      obtain ⟨u, user, rfl⟩ := List.mem_map.mp quit
      have there := part.present u (by simp [Forest.postorder, user])
      obtain rfl := linked.names x present u there drops.2
      simp [Forest.postorder, user]
    have ofSquit : msg = .squit (s.client who).name me →
        x ∈ (Forest.cons who users below next).postorder := by
      rintro rfl
      obtain ⟨y, known, -, sameName, path⟩ := drops
      have there := part.present who (by simp [Forest.postorder])
      obtain rfl := linked.names y known.1 who there sameName
      have first := part.first
      exact inFirst ((first.held.mem_iff first.once first.plain x).mpr (linked.reached present path))
    have ofBelow : msg ∈ treeMsgs (fun x => (s.client x).name) me qs mask comment below →
        x ∈ (Forest.cons who users below next).postorder := fun inBelow => by
      have deep := ihBelow part.under inBelow
      simp [Forest.postorder, deep]
    simp only [treeMsgs, List.mem_append] at sent
    rcases sent with first | later
    · cases qs with
      | true =>
        simp only [if_true] at first
        split at first
        · rcases List.mem_append.mp first with quit | inBelow
          · exact ofQuits quit
          · exact ofBelow inBelow
        · exact ofSquit (List.mem_singleton.mp first)
      | false =>
        simp only [Bool.false_eq_true, if_false, List.mem_append] at first
        rcases first with (quit | inBelow) | squit
        · exact ofQuits quit
        · exact ofBelow inBelow
        · split at squit
          · cases squit
          · exact ofSquit (List.mem_singleton.mp squit)
    · have behind := ihNext part.behind later
      simp [Forest.postorder, behind]

/-- No message names a server that is covered by the mask. -/
theorem State.Part.namesKnown (part : s.Part server f) (linked : s.Linked) {msg : Msg}
    (sent : msg ∈ treeMsgs (fun x => (s.client x).name) me qs mask comment f) :
    ¬ s.NamesHidden mask msg := by
  induction f generalizing server with
  | nil => cases sent
  | cons who users below next ihBelow ihNext =>
    have ofQuits : msg ∈ users.map (fun u => Msg.quit (s.client u).name comment) →
        ¬ s.NamesHidden mask msg := by
      intro quit
      obtain ⟨u, -, rfl⟩ := List.mem_map.mp quit
      exact id
    have ofSquit : ircMatch mask (s.client who).name = false →
        msg = .squit (s.client who).name me → ¬ s.NamesHidden mask msg := by
      rintro visible rfl ⟨y, present, -, sameName, unknown⟩
      have there := part.present who (by simp [Forest.postorder])
      obtain rfl := linked.names y present who there sameName
      exact unknown ((State.mem_told_of_server part.held.1).mpr ⟨present, visible⟩)
    simp only [treeMsgs, List.mem_append] at sent
    rcases sent with first | later
    · cases qs with
      | true =>
        simp only [if_true] at first
        split at first
        · rcases List.mem_append.mp first with quit | inBelow
          · exact ofQuits quit
          · exact ihBelow part.under inBelow
        next visible =>
          exact ofSquit (by simpa using visible) (List.mem_singleton.mp first)
      | false =>
        simp only [Bool.false_eq_true, if_false, List.mem_append] at first
        rcases first with (quit | inBelow) | squit
        · exact ofQuits quit
        · exact ihBelow part.under inBelow
        · split at squit
          · cases squit
          next visible =>
            exact ofSquit (by simpa using visible) (List.mem_singleton.mp squit)
    · exact ihNext part.behind later

theorem State.Holds.servptr_of_root (held : s.Holds server f) {r : ClientId} (isRoot : r ∈ f.roots) :
    (s.client r).servptr = some server := by
  induction f with
  | nil => cases isRoot
  | cons who users below next _ ihNext =>
    obtain ⟨-, hangs, -, -, -, heldNext⟩ := held
    rcases List.mem_cons.mp isRoot with rfl | later
    · exact hangs
    · exact ihNext heldNext later

theorem State.Holds.servptr_of_edge (held : s.Holds server f) {y x : ClientId} (edge : f.Edge y x) :
    (s.client x).servptr = some y := by
  induction f generalizing server with
  | nil => exact edge.elim
  | cons who users below next ihBelow ihNext =>
    obtain ⟨-, -, -, people, heldBelow, heldNext⟩ := held
    rcases edge with ⟨rfl, child | leaf⟩ | inBelow | inNext
    · exact heldBelow.servptr_of_root child
    · exact (people x leaf).2
    · exact ihBelow heldBelow inBelow
    · exact ihNext heldNext inNext

/-- Everything below a server hangs on it if and only if nothing hangs on a covered one. -/
theorem State.Part.hangs_iff (part : s.Part server f) (known : server ∈ s.told mask)
    (apart : server ∉ f.postorder) :
    (∀ x ∈ f.postorder, x ∈ s.told mask → ReflTransGen (s.Hangs mask) x server) ↔
      ∀ h ∈ f.nodes, h ∉ s.told mask → ∀ x, f.Edge h x → x ∉ s.told mask := by
  constructor
  · intro all h _ unknown x edge isKnown
    -- the first step from there does not lead to a server that is known
    rcases ReflTransGen.cases_head (all x (Forest.edge_mem edge) isKnown) with rfl | ⟨y, hangs, -⟩
    · exact apart (Forest.edge_mem edge)
    · have same := hangs.1.symm.trans (part.held.servptr_of_edge edge)
      obtain rfl := Option.some.inj same
      exact unknown hangs.2
  · intro clear x member isKnown
    obtain ⟨r, isRoot, path⟩ := Forest.mem_postorder_iff.mp member
    induction path with
    | refl => exact ReflTransGen.single ⟨part.held.servptr_of_root isRoot, known⟩
    | @tail y x _ edge ih =>
      have upKnown : y ∈ s.told mask := by
        by_contra unknown
        exact clear y (Forest.edge_node edge) unknown x edge isKnown
      have inForest := Forest.mem_postorder.mpr (Or.inl (Forest.edge_node edge))
      exact ReflTransGen.head ⟨part.held.servptr_of_edge edge, upKnown⟩ (ih inForest upKnown)

/-- Behind a server that the link was told of, nothing that it was told of is on a server that it was
not told of. -/
def State.Clear (s : State) (mask : List Char) (f : Forest ClientId) : Prop :=
  ∀ v ∈ f.nodes, v ∈ s.told mask → ∀ h, ReflTransGen s.Below v h →
    (s.client h).status = .server → h ∉ s.told mask → ∀ x, s.Below h x → x ∉ s.told mask

/-- What the link was told of the forest is dropped. -/
def State.DropsAll (s : State) (mask : List Char) (f : Forest ClientId) (msgs : List Msg) : Prop :=
  ∀ x ∈ f.postorder, x ∈ s.told mask → ∃ msg ∈ msgs, s.Drops mask x msg

/-- A link without `CAP_QS` drops everything. -/
theorem State.Part.dropsAll_of_not_qs (part : s.Part server f) :
    s.DropsAll mask f (treeMsgs (fun x => (s.client x).name) me false mask comment f) := by
  intro x member known
  induction f generalizing server with
  | nil => cases member
  | cons who users below next ihBelow ihNext =>
    simp only [Forest.postorder, List.mem_append, List.mem_cons] at member
    simp only [treeMsgs, Bool.false_eq_true, if_false, List.mem_append]
    rcases member with (deep | user) | rfl | later
    · obtain ⟨msg, sent, drops⟩ := ihBelow part.under deep
      exact ⟨msg, Or.inl (Or.inl (Or.inr sent)), drops⟩
    · refine ⟨.quit (s.client x).name comment, Or.inl (Or.inl (Or.inl ?_)), ?_⟩
      · exact List.mem_map.mpr ⟨x, user, rfl⟩
      · exact ⟨(part.held.2.2.2.1 x user).1, IrcEq.refl _⟩
    · have visible := ((State.mem_told_of_server part.held.1).mp known).2
      refine ⟨.squit (s.client x).name me, Or.inl (Or.inr ?_), ?_⟩
      · simp [visible]
      · exact ⟨x, known, part.held.1, IrcEq.refl _, .refl⟩
    · obtain ⟨msg, sent, drops⟩ := ihNext part.behind later
      exact ⟨msg, Or.inr sent, drops⟩

section Siblings

variable {users : List ClientId} {below next : Forest ClientId}

theorem treeMsgs_cons (name : ClientId → List Char) :
    treeMsgs name me qs mask comment (.cons who users below next) =
      treeMsgs name me qs mask comment (.cons who users below .nil) ++
        treeMsgs name me qs mask comment next := by
  simp [treeMsgs]

theorem mem_postorder_cons {x : ClientId} : x ∈ (Forest.cons who users below next).postorder ↔
    x ∈ (Forest.cons who users below .nil).postorder ∨ x ∈ next.postorder := by
  simp only [Forest.postorder, List.mem_append, List.mem_cons, List.not_mem_nil, or_false]
  tauto

theorem State.Part.disjoint (part : s.Part server (.cons who users below next)) {x : ClientId}
    (first : x ∈ (Forest.cons who users below .nil).postorder) : x ∉ next.postorder := by
  have once := part.once
  rw [show (Forest.cons who users below next).postorder =
    (Forest.cons who users below .nil).postorder ++ next.postorder by simp [Forest.postorder]] at once
  exact fun later => (List.nodup_append.mp once).2.2 x first x later rfl

/-- The messages about siblings have nothing to do with each other. -/
theorem State.Part.dropsAll_cons (part : s.Part server (.cons who users below next))
    (linked : s.Linked) :
    s.DropsAll mask (.cons who users below next)
        (treeMsgs (fun x => (s.client x).name) me qs mask comment (.cons who users below next)) ↔
      s.DropsAll mask (.cons who users below .nil)
        (treeMsgs (fun x => (s.client x).name) me qs mask comment (.cons who users below .nil)) ∧
      s.DropsAll mask next (treeMsgs (fun x => (s.client x).name) me qs mask comment next) := by
  rw [treeMsgs_cons]
  constructor
  · intro all
    refine ⟨fun x member known => ?_, fun x member known => ?_⟩
    · obtain ⟨msg, sent, drops⟩ := all x (mem_postorder_cons.mpr (Or.inl member)) known
      rcases List.mem_append.mp sent with first | later
      · exact ⟨msg, first, drops⟩
      · exact absurd (part.behind.dropped linked later known.1 drops) (part.disjoint member)
    · obtain ⟨msg, sent, drops⟩ := all x (mem_postorder_cons.mpr (Or.inr member)) known
      rcases List.mem_append.mp sent with first | later
      · exact absurd member (part.disjoint (part.first.dropped linked first known.1 drops))
      · exact ⟨msg, later, drops⟩
  · rintro ⟨first, behind⟩ x member known
    rcases mem_postorder_cons.mp member with here | later
    · obtain ⟨msg, sent, drops⟩ := first x here known
      exact ⟨msg, List.mem_append_left _ sent, drops⟩
    · obtain ⟨msg, sent, drops⟩ := behind x later known
      exact ⟨msg, List.mem_append_right _ sent, drops⟩

theorem State.clear_cons : s.Clear mask (.cons who users below next) ↔
    s.Clear mask (.cons who users below .nil) ∧ s.Clear mask next := by
  unfold State.Clear
  simp only [Forest.nodes, List.mem_cons, List.mem_append, List.not_mem_nil, or_false]
  constructor
  · intro clear
    exact ⟨fun v node => clear v (by tauto), fun v node => clear v (by tauto)⟩
  · rintro ⟨first, behind⟩ v (node | node | node)
    · exact first v (Or.inl node)
    · exact first v (Or.inr node)
    · exact behind v node

/-- The first server is covered: its users are named, and the messages go on below. -/
theorem State.Part.dropsAll_covered (part : s.Part server (.cons who users below .nil))
    (linked : s.Linked) (covered : who ∉ s.told mask) :
    s.DropsAll mask (.cons who users below .nil)
        (treeMsgs (fun x => (s.client x).name) me true mask comment (.cons who users below .nil)) ↔
      s.DropsAll mask below (treeMsgs (fun x => (s.client x).name) me true mask comment below) := by
  have present := part.present who (by simp [Forest.postorder])
  have hidden : ircMatch mask (s.client who).name = true := by
    by_contra visible
    exact covered ((State.mem_told_of_server part.held.1).mpr ⟨present, by simpa using visible⟩)
  have once := part.once
  simp only [Forest.postorder, List.nodup_append] at once
  simp only [treeMsgs, if_true, hidden, List.append_nil]
  constructor
  · intro all x member known
    obtain ⟨msg, sent, drops⟩ := all x (by simp [Forest.postorder, member]) known
    rcases List.mem_append.mp sent with quit | deep
    · -- a user of the server is not below it, too
      obtain ⟨u, user, rfl⟩ := List.mem_map.mp quit
      have there := part.present u (by simp [Forest.postorder, user])
      obtain rfl := linked.names x known.1 u there drops.2
      exact (once.1.2.2 x member x user rfl).elim
    · exact ⟨msg, deep, drops⟩
  · intro all x member known
    simp only [Forest.postorder, List.mem_append, List.mem_singleton] at member
    rcases member with (deep | user) | rfl
    · obtain ⟨msg, sent, drops⟩ := all x deep known
      exact ⟨msg, List.mem_append_right _ sent, drops⟩
    · refine ⟨.quit (s.client x).name comment, List.mem_append_left _ ?_, ?_⟩
      · exact List.mem_map.mpr ⟨x, user, rfl⟩
      · exact ⟨(part.held.2.2.2.1 x user).1, IrcEq.refl _⟩
    · exact absurd known covered

/-- The first server is known: it is the only one that is named. -/
theorem State.Part.dropsAll_known (part : s.Part server (.cons who users below .nil))
    (linked : s.Linked) (known : who ∈ s.told mask) :
    s.DropsAll mask (.cons who users below .nil)
        (treeMsgs (fun x => (s.client x).name) me true mask comment (.cons who users below .nil)) ↔
      ∀ h ∈ below.nodes, h ∉ s.told mask → ∀ x, below.Edge h x → x ∉ s.told mask := by
  obtain ⟨present, visible⟩ := (State.mem_told_of_server part.held.1).mp known
  have once := part.once
  simp only [Forest.postorder, List.nodup_append] at once
  rw [← part.under.hangs_iff known fun member =>
    once.2.2 who (List.mem_append_left _ member) who (by simp) rfl]
  simp only [treeMsgs, if_true, visible, Bool.false_eq_true, if_false, List.append_nil]
  constructor
  · intro all x member isKnown
    obtain ⟨msg, sent, drops⟩ := all x (by simp [Forest.postorder, member]) isKnown
    obtain rfl := List.mem_singleton.mp sent
    obtain ⟨y, yKnown, -, sameName, path⟩ := drops
    obtain rfl := linked.names y yKnown.1 who present sameName
    exact path
  · intro all x member isKnown
    refine ⟨_, List.mem_singleton_self _, who, known, part.held.1, IrcEq.refl _, ?_⟩
    simp only [Forest.postorder, List.mem_append, List.mem_singleton] at member
    rcases member with (deep | user) | rfl
    · exact all x deep isKnown
    · exact ReflTransGen.single ⟨(part.held.2.2.2.1 x user).2, known⟩
    · exact .refl

end Siblings

/-- A link with `CAP_QS` drops everything if and only if nothing that it was told of is on a covered
server behind one that it was told of. -/
theorem State.Part.dropsAll_iff (part : s.Part server f) (linked : s.Linked) :
    s.DropsAll mask f (treeMsgs (fun x => (s.client x).name) me true mask comment f) ↔
      s.Clear mask f := by
  induction f generalizing server with
  | nil => simp [State.DropsAll, Forest.postorder, State.Clear, Forest.nodes]
  | cons who users below next ihBelow ihNext =>
    rw [part.dropsAll_cons linked, State.clear_cons, ihNext part.behind]
    apply and_congr_left
    intro _
    have first := part.first
    have reach := first.held.mem_iff first.once first.plain
    by_cases known : who ∈ s.told mask
    · rw [first.dropsAll_known linked known]
      constructor
      · intro clear v node _ h path isServer unknown x hangs
        have inTree := (reach h).mpr
          (((reach v).mp (Forest.mem_postorder.mpr (Or.inl node))).trans path)
        rcases Forest.mem_postorder.mp inTree with isNode | isLeaf
        · simp only [Forest.nodes, List.mem_cons, List.append_nil] at isNode
          rcases isNode with rfl | inBelow
          · exact absurd known unknown
          · exact clear h inBelow unknown x
              ((part.under.held.below_iff part.under.once inBelow x).mp hangs)
        · have person := (first.held.leaf isLeaf).1
          simp [Client.isPerson, isServer] at person
      · intro clear h inBelow unknown x edge
        have node : h ∈ (Forest.cons who users below .nil).nodes := by simp [Forest.nodes, inBelow]
        exact clear who (by simp [Forest.nodes]) known h
          ((reach h).mp (Forest.mem_postorder.mpr (Or.inl node))) (first.held.node node) unknown x
          ((part.under.held.below_iff part.under.once inBelow x).mpr edge)
    · rw [first.dropsAll_covered linked known, ihBelow part.under]
      unfold State.Clear
      simp only [Forest.nodes, List.mem_cons, List.append_nil]
      constructor
      · rintro clear v (rfl | node) isKnown
        · exact absurd isKnown known
        · exact clear v node isKnown
      · exact fun clear v node => clear v (Or.inr node)

/-! ### Split announcement -/

/-- What is queued for one of several links. -/
theorem filter_flatMap_links {links : List ClientId} (once : links.Nodup) {dest : ClientId}
    (member : dest ∈ links) (msgs : ClientId → List Msg) :
    (links.flatMap fun d => (msgs d).map fun msg => (d, msg)).filter (·.1 = dest) =
      (msgs dest).map fun msg => (dest, msg) := by
  induction links with
  | nil => cases member
  | cons d links ih =>
    obtain ⟨apart, once⟩ := List.nodup_cons.mp once
    rw [List.flatMap_cons, List.filter_append, List.filter_map]
    rcases List.mem_cons.mp member with rfl | later
    · have rest : (links.flatMap fun d => (msgs d).map fun msg => (d, msg)).filter
          (·.1 = dest) = [] := by
        apply List.filter_eq_nil_iff.mpr
        rintro ⟨d, msg⟩ sent
        obtain ⟨d', isLink, inMsgs⟩ := List.mem_flatMap.mp sent
        obtain ⟨msg', -, same⟩ := List.mem_map.mp inMsgs
        obtain ⟨rfl, rfl⟩ := Prod.mk.inj same
        simp only [decide_eq_true_eq]
        rintro rfl
        exact apart isLink
      rw [rest]
      simp [Function.comp_def]
    · have different : d ≠ dest := by
        rintro rfl
        exact apart later
      rw [ih once later]
      simp [Function.comp_def, different]

/-- The names and the masks are those from before. -/
theorem State.splitMsgs_depart (s : State) (fits : s.meName.length ≤ hostLen) (who : ClientId)
    (users : List ClientId) (below : Forest ClientId) (dest : ClientId) :
    (s.depart who).splitMsgs who users below dest =
      treeMsgs (fun x => (s.client x).name) s.meName (s.client dest).qs (s.maskFor dest)
        (s.splitComment who) (.cons who users below .nil) := by
  have client := s.depart_client who
  obtain ⟨-, meName, -, -, -, hide, network, -⟩ := s.depart_rest who
  have mask : (s.depart who).maskFor dest = s.maskFor dest := by
    unfold State.maskFor
    rw [client, meName]
  have comment : (s.depart who).splitComment who = s.splitComment who := by
    unfold State.splitComment
    simp only [client, meName, hide, network]
  have short : (s.maskFor dest).length ≤ hostLen := by
    unfold State.maskFor
    cases named : ((s.client dest).serv.bind Serv.sconf).bind Conf.fakename with
    | none => exact fits
    | some mask =>
      obtain ⟨conf, -, given⟩ := Option.bind_eq_some_iff.mp named
      exact conf.fakename_len mask given
  unfold State.splitMsgs
  rw [mask, comment, meName, List.take_of_length_le short]
  simp only [client]

/-- What `exit_client` sends to a link that is told of the split. -/
theorem exitClient_msgs {users : List ClientId} {below : Forest ClientId}
    (tree : s.Tree server who users below) (linked : s.Linked) {dest : ClientId}
    (isLink : dest ∈ s.servList) (notMe : (s.client dest).status ≠ .me)
    (other : dest ≠ who) (otherLink : (s.client who).source ≠ some dest)
    {clientP : Option ClientId} (asked : clientP = some dest → (s.client dest).qs = false)
    (sender : ClientId) (comment : List Char) :
    ∃ t sent, (∀ fuel, (Forest.cons who users below .nil).size ≤ fuel →
        s.exitClient clientP who sender comment fuel = some t) ∧ t.sent = s.sent ++ sent ∧
      (sent.filter (·.1 = dest)).map Prod.snd =
        treeMsgs (fun x => (s.client x).name) s.meName (s.client dest).qs (s.maskFor dest)
          (s.splitComment who) (.cons who users below .nil) := by
  obtain ⟨t, told, done, exits, upstream⟩ := exitClient_spec tree clientP sender comment
  have client := s.depart_client who
  obtain ⟨-, -, -, -, -, -, -, servList⟩ := s.depart_rest who
  have route : ∀ d, (s.client d).source = some d → (s.depart who).route d = d := by
    intro d own
    unfold State.route
    rw [client]
    dsimp only
    split
    · rfl
    · rw [own]
      rfl
  -- the links that are told
  have subset : ∀ d ∈ (s.depart who).servList, d ∈ s.servList := by
    rcases servList with same | off
    · rw [same]
      exact fun _ => id
    · rw [off]
      exact fun _ => List.mem_of_mem_erase
  have links : ((s.depart who).splitLinks clientP who).Nodup ∧
      dest ∈ (s.depart who).splitLinks clientP who := by
    unfold State.splitLinks
    have stays : (s.depart who).servList.Nodup ∧ dest ∈ (s.depart who).servList := by
      rcases servList with same | off
      · rw [same]
        exact ⟨linked.nodup, isLink⟩
      · rw [off]
        exact ⟨linked.nodup.erase _, (List.mem_erase_of_ne other).mpr isLink⟩
    refine ⟨stays.1.filter _, List.mem_filter.mpr ⟨stays.2, ?_⟩⟩
    have departed : ((s.depart who).client who).source ≠ some dest := by
      rw [client]
      dsimp only
      split
      · exact fun none => by cases none
      · exact otherLink
    have capable : ((s.depart who).client dest).qs = (s.client dest).qs := by rw [client]
    have status : ((s.depart who).client dest).status = (s.client dest).status := by rw [client]
    have silent : (clientP == some dest && (s.client dest).qs) = false := by
      by_cases same : clientP = some dest
      · rw [asked same, Bool.and_false]
      · simp [same]
    rw [status, capable, silent]
    simp [notMe, departed]
  refine ⟨t, ((s.depart who).splitLinks clientP who).flatMap (fun dest =>
    ((s.depart who).splitMsgs who users below dest).map fun msg =>
      ((s.depart who).route dest, msg)) ++ told, done, ?_, ?_⟩
  · exact exits.sent.trans (List.append_assoc _ _ _)
  · have routed : ((s.depart who).splitLinks clientP who).flatMap (fun dest =>
        ((s.depart who).splitMsgs who users below dest).map fun msg =>
          ((s.depart who).route dest, msg)) =
        ((s.depart who).splitLinks clientP who).flatMap fun dest =>
          ((s.depart who).splitMsgs who users below dest).map fun msg => (dest, msg) := by
      apply List.flatMap_congr
      intro d member
      rw [route d (linked.link d (subset d (List.mem_of_mem_filter member)))]
    have silent : told.filter (·.1 = dest) = [] := by
      apply List.filter_eq_nil_iff.mpr
      intro m member
      obtain ⟨d, up, same⟩ := upstream m member
      rw [route d (linked.source who d up)] at same
      simp only [decide_eq_true_eq, same]
      rintro rfl
      exact otherLink up
    rw [routed, List.filter_append, silent, List.append_nil,
      filter_flatMap_links links.1 links.2, s.splitMsgs_depart linked.meName_len]
    simp [Function.comp_def]

/-- What another link drops at the split of a server. It drops just what it was told of the tree, and
no message names a server that it was not told of, if and only if it has no `CAP_QS` or nothing that
it was told of is on a covered server behind one that it was told of. -/
theorem split_announced_iff {users : List ClientId} {below : Forest ClientId}
    (tree : s.Tree server who users below) (linked : s.Linked)
    (present : ∀ x, ReflTransGen s.Below who x → x ∈ s.globalClientList) {dest : ClientId}
    (isLink : dest ∈ s.servList) (notMe : (s.client dest).status ≠ .me)
    (other : dest ≠ who) (otherLink : (s.client who).source ≠ some dest)
    {clientP : Option ClientId} (asked : clientP = some dest → (s.client dest).qs = false)
    (sender : ClientId) (comment : List Char) :
    ∃ t sent, (∀ fuel, (Forest.cons who users below .nil).size ≤ fuel →
        s.exitClient clientP who sender comment fuel = some t) ∧ t.sent = s.sent ++ sent ∧
      let msgs := (sent.filter (·.1 = dest)).map Prod.snd
      (s.receive (s.maskFor dest) (s.told (s.maskFor dest)) msgs =
            {x ∈ s.told (s.maskFor dest) | ¬ ReflTransGen s.Below who x} ∧
          (∀ msg ∈ msgs, ¬ s.NamesHidden (s.maskFor dest) msg) ↔
        ((s.client dest).qs = true → ∀ v, ReflTransGen s.Below who v → (s.client v).status = .server →
          v ∈ s.told (s.maskFor dest) → ∀ h, ReflTransGen s.Below v h →
            (s.client h).status = .server → h ∉ s.told (s.maskFor dest) →
              ∀ x, s.Below h x → x ∉ s.told (s.maskFor dest))) := by
  obtain ⟨t, sent, done, grown, msgs⟩ :=
    exitClient_msgs tree linked isLink notMe other otherLink asked sender comment
  refine ⟨t, sent, done, grown, ?_⟩
  dsimp only
  rw [msgs]
  have reach := tree.mem_iff
  have part : s.Part server (.cons who users below .nil) :=
    ⟨tree.held, tree.once, tree.plain, fun x member => present x ((reach x).mp member)⟩
  -- what is left is the rest, if everything is dropped
  have exactly : ∀ msgs, (∀ msg ∈ msgs, ∀ x ∈ s.globalClientList, s.Drops (s.maskFor dest) x msg →
        x ∈ (Forest.cons who users below .nil).postorder) →
      (s.receive (s.maskFor dest) (s.told (s.maskFor dest)) msgs =
          {x ∈ s.told (s.maskFor dest) | ¬ ReflTransGen s.Below who x} ↔
        s.DropsAll (s.maskFor dest) (.cons who users below .nil) msgs) := by
    intro msgs inTree
    simp only [Set.ext_iff, State.mem_receive, ← reach]
    constructor
    · intro same x member known
      by_contra none
      push Not at none
      exact ((same x).mp ⟨known, none⟩).2 member
    · intro all x
      constructor
      · rintro ⟨known, none⟩
        refine ⟨known, fun member => ?_⟩
        obtain ⟨msg, isSent, drops⟩ := all x member known
        exact none msg isSent drops
      · rintro ⟨known, outside⟩
        exact ⟨known, fun msg isSent drops => outside (inTree msg isSent x known.1 drops)⟩
  rw [exactly _ fun msg member x there drops => part.dropped linked member there drops]
  cases qs : (s.client dest).qs with
  | false =>
    exact iff_of_true ⟨part.dropsAll_of_not_qs, fun msg => part.namesKnown linked⟩
      fun no => by cases no
  | true =>
    rw [part.dropsAll_iff linked, and_iff_left fun msg => part.namesKnown linked]
    constructor
    · intro clear _ v path isServer
      refine clear v ?_
      rcases Forest.mem_postorder.mp ((reach v).mpr path) with node | leaf
      · exact node
      · have person := (tree.held.leaf leaf).1
        simp [Client.isPerson, isServer] at person
    · intro clear v node
      exact clear rfl v ((reach v).mp (Forest.mem_postorder.mpr (Or.inl node))) (tree.held.node node)

theorem smallNetwork_linked : smallNetwork.Linked where
  meName_len := by decide
  nodup := by decide
  link := by decide
  source x d from_d := by
    match x with
    | 0 | 1 | 2 | 3 | 4 =>
      obtain rfl := Option.some.inj from_d
      rfl
    | _ + 5 => cases from_d
  names := by decide
  listed x present y hangs := by
    have few : x = 1 ∨ x = 2 ∨ x = 3 ∨ x = 4 := by simpa [smallNetwork] using present
    rcases few with rfl | rfl | rfl | rfl <;> obtain rfl := Option.some.inj hangs <;>
      exact ⟨_, rfl, by decide⟩

theorem smallNetwork_present (x : ClientId) (path : ReflTransGen smallNetwork.Below 1 x) :
    x ∈ smallNetwork.globalClientList := by
  have inTree := (smallNetwork_tree.mem_iff x).mpr path
  simp only [Forest.postorder, List.mem_append, List.mem_cons, List.not_mem_nil, or_false,
    false_or] at inTree
  rcases inTree with (rfl | rfl) | rfl <;> decide

theorem split_announced_iff_smallNetwork :
    ∃ t sent, (∀ fuel, 8 ≤ fuel → smallNetwork.exitClient none 1 0 [] fuel = some t) ∧
      t.sent = smallNetwork.sent ++ sent ∧
      let msgs := (sent.filter (·.1 = 4)).map Prod.snd
      let mask := smallNetwork.maskFor 4
      (smallNetwork.receive mask (smallNetwork.told mask) msgs =
            {x ∈ smallNetwork.told mask | ¬ ReflTransGen smallNetwork.Below 1 x} ∧
          (∀ msg ∈ msgs, ¬ smallNetwork.NamesHidden mask msg) ↔
        ((smallNetwork.client 4).qs = true → ∀ v, ReflTransGen smallNetwork.Below 1 v →
          (smallNetwork.client v).status = .server → v ∈ smallNetwork.told mask →
            ∀ h, ReflTransGen smallNetwork.Below v h → (smallNetwork.client h).status = .server →
              h ∉ smallNetwork.told mask → ∀ x, smallNetwork.Below h x →
                x ∉ smallNetwork.told mask)) :=
  split_announced_iff smallNetwork_tree smallNetwork_linked smallNetwork_present (by decide)
    (by decide) (by decide) (by decide) (fun no => by cases no) 0 []

/-- The user on the covered server stays behind: the SQUIT for the server in front of it does not take
it away. -/
theorem user_left_behind : smallNetwork.Tree 0 1 [] (.cons 2 [3] .nil .nil) ∧
    ReflTransGen smallNetwork.Below 1 3 ∧
    ∃ t, smallNetwork.exitClient none 1 0 [] 8 = some t ∧
      3 ∈ smallNetwork.receive (smallNetwork.maskFor 4) (smallNetwork.told (smallNetwork.maskFor 4))
        ((t.sent.filter (·.1 = 4)).map Prod.snd) := by
  refine ⟨smallNetwork_tree, (smallNetwork_tree.mem_iff 3).mp (by decide), ?_⟩
  have run : (smallNetwork.exitClient none 1 0 [] 8).map (fun t =>
      (t.sent.filter (·.1 = 4)).map Prod.snd) =
        some [.squit ['a', '.', 'u', 'k'] ['h', '.', 'u', 's']] := by
    decide +kernel
  obtain ⟨t, done, msgs⟩ := Option.map_eq_some_iff.mp run
  refine ⟨t, done, ?_⟩
  rw [msgs, State.mem_receive]
  refine ⟨⟨by decide, Or.inl rfl⟩, fun msg sent drops => ?_⟩
  obtain rfl := List.mem_singleton.mp sent
  obtain ⟨y, known, isServer, -, path⟩ := drops
  rcases ReflTransGen.cases_head path with rfl | ⟨z, hangs, -⟩
  · cases isServer
  · -- the server of the user is covered by the mask
    obtain rfl := Option.some.inj hangs.1
    have visible := ((State.mem_told_of_server (by rfl)).mp hangs.2).2
    revert visible
    decide +kernel

end Ircd.Split
