import Ircd.Lib.Refs
import Ircd.Lib.Run

/-!
# Connection classes

The table of classes (`src/class.c`), and the blocks of the configuration whose clients they count (`src/s_conf.c`).
A load marks all classes but the first for deletion, reads its blocks and takes out what is still marked. A class that
is in use then stays in memory until the last client is detached.
-/
namespace Ircd.Conf.Classes

/-- `struct Class`. `freed` notes that `free_class` has been called. -/
structure ConnClass where
  className : List Char
  conFreq : ℤ
  pingFreq : ℤ
  maxLinks : ℤ
  maxSendq : ℤ
  links : ℤ
  freed : Bool
deriving DecidableEq

/-- What the `status` says: `CONF_CLIENT`, `CONF_SERVER`, `CONF_OPERATOR`, or none of `CONF_CLIENT_MASK`. -/
inductive ConfKind where
  | client
  | server
  | operator
  | other
deriving DecidableEq

/-- `struct ConfItem`. `illegal` is `CONF_ILLEGAL`, and `exempt` is `CONF_FLAGS_NOLIMIT`. `freed` notes that
`free_conf` has been called. -/
structure ConfItem where
  kind : ConfKind
  illegal : Bool
  clients : ℤ
  cClass : Option ℕ
  exempt : Bool
  freed : Bool
deriving DecidableEq

/-- The classes and confs in memory. `ClassList` is the first class with the `rest` behind it, `configItems` is
`ConfigItemList`, and `atable` has the confs in the address table. `attached` has the `confs` of each client. -/
structure State (κ : Type) where
  classes : ℕ → ConnClass
  madeClasses : ℕ
  rest : List ℕ
  confs : ℕ → ConfItem
  madeConfs : ℕ
  configItems : List ℕ
  atable : List ℕ
  attached : κ → List ℕ

/-- The class that `initclass` makes, `class0`. -/
def firstClass : ℕ := 0

def defaultSendq : ℤ := 9000000

def defaultName : List Char := ['d', 'e', 'f', 'a', 'u', 'l', 't']

/-- After `initclass`, when no configuration has been read. -/
def start (κ : Type) : State κ where
  classes := fun c =>
    if c = firstClass then ⟨defaultName, 600, 120, 0, defaultSendq, 0, false⟩ else ⟨[], 0, 0, 0, 0, 0, false⟩
  madeClasses := 1
  rest := []
  confs := fun _ => ⟨.other, true, 0, none, false, false⟩
  madeConfs := 0
  configItems := []
  atable := []
  attached := fun _ => []

section Operations

variable {κ : Type}

/-- `ClassList`. -/
def State.classList (s : State κ) : List ℕ := firstClass :: s.rest

/-- `find_class`. -/
def State.findClass (s : State κ) (classname : Option (List Char)) : ℕ :=
  match classname with
  | none => firstClass
  | some name => (s.classList.find? fun c => (s.classes c).className = name).getD firstClass

def State.setClass (s : State κ) (c : ℕ) (cls : ConnClass) : State κ :=
  { s with classes := Function.update s.classes c cls }

def State.setConf (s : State κ) (aconf : ℕ) (item : ConfItem) : State κ :=
  { s with confs := Function.update s.confs aconf item }

/-- `add_class`. A new class comes right behind the first. -/
def State.addClass (s : State κ) (classname : Option (List Char)) (ping confreq maxli sendq : ℤ) : State κ :=
  match classname with
  | none => s
  | some name =>
    let t := s.findClass (some name)
    let maxSendq := if 0 < sendq then sendq else defaultSendq
    if t = firstClass then
      { s.setClass s.madeClasses ⟨name, confreq, ping, maxli, maxSendq, 0, false⟩ with
        madeClasses := s.madeClasses + 1
        rest := s.madeClasses :: s.rest }
    else
      s.setClass t
        { s.classes t with
          className := name, conFreq := confreq, pingFreq := ping, maxLinks := maxli, maxSendq := maxSendq }

/-- The class that `conf_add_class_to_conf` gives to a conf. -/
def State.confClass (s : State κ) (className : Option (List Char)) : ℕ :=
  match className with
  | none => firstClass
  | some name =>
    let c := s.findClass (some name)
    if c = firstClass then firstClass
    else if (s.classes c).maxLinks < 0 then s.findClass none
    else c

/-- A block of the configuration is complete. -/
def State.addConf (s : State κ) (kind : ConfKind) (className : Option (List Char)) (exempt : Bool) : State κ :=
  let cClass := if kind = .other then none else some (s.confClass className)
  { s.setConf s.madeConfs ⟨kind, false, 0, cClass, exempt, false⟩ with
    madeConfs := s.madeConfs + 1
    configItems := if kind = .client then s.configItems else s.madeConfs :: s.configItems
    atable := if kind = .client then s.madeConfs :: s.atable else s.atable }

/-- A conf that is in use is kept until the last client leaves it. -/
def ConfItem.clear (item : ConfItem) : ConfItem :=
  if item.clients ≠ 0 then { item with illegal := true } else { item with freed := true }

/-- `clear_out_old_conf`, with `clear_out_address_conf`. -/
def State.clearOutOldConf (s : State κ) : State κ :=
  { s with
    confs := fun a => if a ∈ s.configItems ++ s.atable then (s.confs a).clear else s.confs a
    configItems := s.configItems.filter fun a => (s.confs a).clients ≠ 0 ∧ (s.confs a).kind = .client
    classes := fun c => if c ∈ s.rest then { s.classes c with maxLinks := -1 } else s.classes c
    atable := [] }

/-- `check_class`. The first class stays on the list whatever becomes of it. -/
def State.checkClass (s : State κ) : State κ :=
  { s with
    rest := s.rest.filter fun c => 0 ≤ (s.classes c).maxLinks
    classes := fun c =>
      if c ∈ s.classList ∧ (s.classes c).maxLinks < 0 ∧ (s.classes c).links ≤ 0 then
        { s.classes c with freed := true }
      else s.classes c }

/-- The class that counts the clients of a conf. -/
def State.target (s : State κ) (aconf : ℕ) : Option ℕ :=
  if (s.confs aconf).kind = .other then none else (s.confs aconf).cClass

variable [DecidableEq κ]

inductive AttachResult where
  | attached
  | alreadyAttached
  | notAuthorized
  | iLineFull
deriving DecidableEq

/-- `attach_conf`. -/
def State.attachConf (s : State κ) (client : κ) (aconf : ℕ) : State κ × AttachResult :=
  let item := s.confs aconf
  let full := item.kind = .client ∧ ∃ c ∈ item.cClass,
    (s.classes c).maxLinks ≤ (s.classes c).links ∧ 0 < (s.classes c).maxLinks
  if aconf ∈ s.attached client then (s, .alreadyAttached)
  else if item.illegal then (s, .notAuthorized)
  else if full ∧ item.exempt = false then (s, .iLineFull)
  else
    let s' := { s with attached := Function.update s.attached client (aconf :: s.attached client) }
    let s' := s'.setConf aconf { item with clients := item.clients + 1 }
    (match s.target aconf with
      | none => s'
      | some c => s'.setClass c { s.classes c with links := (s.classes c).links + 1 }, .attached)

/-- What `detach_conf` does about the class. -/
def State.leaveClass (s : State κ) (aconf : ℕ) : State κ :=
  match (s.confs aconf).cClass with
  | none => s
  | some c =>
    let cls := s.classes c
    let cls := if (s.confs aconf).kind ≠ .other ∧ 0 < cls.links then { cls with links := cls.links - 1 } else cls
    if cls.maxLinks = -1 ∧ cls.links = 0 then
      (s.setClass c { cls with freed := true }).setConf aconf { s.confs aconf with cClass := none }
    else s.setClass c cls

/-- `detach_conf`. -/
def State.detachConf (s : State κ) (client : κ) (aconf : ℕ) : State κ × Bool :=
  if aconf ∈ s.attached client then
    let s' := s.leaveClass aconf
    let item := s'.confs aconf
    let item := { item with clients := item.clients - 1 }
    let item := if item.clients = 0 ∧ item.illegal then { item with freed := true } else item
    ({ s'.setConf aconf item with
      attached := Function.update s.attached client ((s.attached client).erase aconf) }, true)
  else (s, false)

/-! ### Runs -/

/-- A class block, or another block that has clients. -/
inductive Block where
  | cls (classname : Option (List Char)) (ping confreq maxli sendq : ℤ)
  | conf (kind : ConfKind) (className : Option (List Char)) (exempt : Bool)

inductive Event (κ : Type) where
  | clearOutOldConf
  | block (block : Block)
  | checkClass
  | attach (client : κ) (aconf : ℕ)
  | detach (client : κ) (aconf : ℕ)

/-- A conf that has been freed is neither attached nor detached. -/
def step (s : State κ) : Event κ → State κ
  | .clearOutOldConf => s.clearOutOldConf
  | .block (.cls classname ping confreq maxli sendq) => s.addClass classname ping confreq maxli sendq
  | .block (.conf kind className exempt) => s.addConf kind className exempt
  | .checkClass => s.checkClass
  | .attach client aconf =>
    if aconf < s.madeConfs ∧ (s.confs aconf).freed = false then (s.attachConf client aconf).1 else s
  | .detach client aconf =>
    if aconf < s.madeConfs ∧ (s.confs aconf).freed = false then (s.detachConf client aconf).1 else s

/-- Nothing happens to a client while the configuration is loaded. -/
inductive Op (κ : Type) where
  | load (blocks : List Block)
  | attach (client : κ) (aconf : ℕ)
  | detach (client : κ) (aconf : ℕ)

/-- A load: `read_conf_files`. The first has nothing to clear out. -/
def Op.events : Op κ → List (Event κ)
  | .load blocks => .clearOutOldConf :: (blocks.map .block ++ [.checkClass])
  | .attach client aconf => [.attach client aconf]
  | .detach client aconf => [.detach client aconf]

/-- What happens one after another. -/
def history (ops : List (Op κ)) : List (Event κ) := ops.flatMap Op.events

end Operations

/-! ### What is found -/

section

variable {κ : Type} {s : State κ}

/-- What `find_class` finds. -/
theorem findClass_cases (s : State κ) (name : List Char) :
    (∃ c ∈ s.classList, s.findClass (some name) = c ∧ (s.classes c).className = name) ∨
      s.findClass (some name) = firstClass ∧ ∀ c ∈ s.classList, (s.classes c).className ≠ name := by
  rw [State.findClass]
  cases found : s.classList.find? fun c => (s.classes c).className = name with
  | none =>
    right
    refine ⟨rfl, fun c member same => ?_⟩
    exact List.find?_eq_none.mp found c member (by simpa using same)
  | some c =>
    left
    exact ⟨c, List.mem_of_find?_eq_some found, rfl, by simpa using List.find?_some found⟩

theorem mem_findClass (s : State κ) (classname : Option (List Char)) : s.findClass classname ∈ s.classList := by
  cases classname with
  | none => exact List.mem_cons_self
  | some name =>
    obtain ⟨c, member, found, -⟩ | ⟨found, -⟩ := findClass_cases s name
    · rwa [found]
    · rw [found]
      exact List.mem_cons_self

theorem mem_confClass (s : State κ) (className : Option (List Char)) : s.confClass className ∈ s.classList := by
  cases className with
  | none => exact List.mem_cons_self
  | some name =>
    simp only [State.confClass]
    split
    · exact List.mem_cons_self
    · split
      · exact mem_findClass s none
      · exact mem_findClass s _

/-- The class that has the name is the only one. -/
theorem findClass_of_mem (distinct : (s.classList.map fun c => (s.classes c).className).Nodup) {c : ℕ}
    (member : c ∈ s.classList) : s.findClass (some (s.classes c).className) = c := by
  obtain ⟨c', member', found, same⟩ | ⟨-, none⟩ := findClass_cases s (s.classes c).className
  · rw [found]
    exact List.inj_on_of_nodup_map distinct member' member same
  · exact absurd rfl (none c member)

end

/-! ### What must hold -/

section

variable {κ : Type} [Fintype κ]

/-- How often a conf of a client, server or operator that points to the class is attached. -/
def State.attachments (s : State κ) (c : ℕ) : ℕ := refs (fun client => (s.attached client).map s.target) (some c)

structure State.Right (s : State κ) : Prop where
  names : (s.classList.map fun c => (s.classes c).className).Nodup
  links : ∀ c < s.madeClasses, (s.classes c).freed = false → (s.classes c).links = s.attachments c
  noneFreed : ∀ client, ∀ aconf ∈ s.attached client, ∀ c ∈ (s.confs aconf).cClass, (s.classes c).freed = false

/-- After a class block `find_class` finds the class as the block has it. -/
def Found (s' : State κ) : Event κ → Prop
  | .block (.cls (some name) ping confreq maxli sendq) =>
    let cls := s'.classes (s'.findClass (some name))
    cls.className = name ∧ cls.pingFreq = ping ∧ cls.conFreq = confreq ∧ cls.maxLinks = maxli ∧
      cls.maxSendq = if 0 < sendq then sendq else defaultSendq
  | _ => True

/-- A class block does not have the name of the first class. When the blocks have been read, the confs point to classes
that stay. -/
def Safe (s : State κ) : Event κ → Prop
  | .block (.cls (some name) _ _ _ _) => name ≠ (s.classes firstClass).className
  | .checkClass => ∀ aconf ∈ s.configItems ++ s.atable, ∀ c ∈ (s.confs aconf).cClass, 0 ≤ (s.classes c).maxLinks
  | _ => True

instance (s : State κ) : DecidablePred (Safe s)
  | .block (.cls (some name) _ _ _ _) => inferInstanceAs (Decidable (name ≠ (s.classes firstClass).className))
  | .checkClass => inferInstanceAs (Decidable
      (∀ aconf ∈ s.configItems ++ s.atable, ∀ c ∈ (s.confs aconf).cClass, 0 ≤ (s.classes c).maxLinks))
  | .clearOutOldConf | .block (.cls none _ _ _ _) | .block (.conf _ _ _) | .attach _ _ | .detach _ _ => .isTrue trivial

/-! ### The invariant -/

/-- The conf is in memory. -/
def State.Alive (s : State κ) (aconf : ℕ) : Prop := aconf < s.madeConfs ∧ (s.confs aconf).freed = false

structure State.Sound (s : State κ) : Prop where
  names : (s.classList.map fun c => (s.classes c).className).Nodup
  listed : ∀ c ∈ s.classList, c < s.madeClasses ∧ (s.classes c).freed = false
  firstStays : 0 ≤ (s.classes firstClass).maxLinks
  links : ∀ c, (s.classes c).links = s.attachments c
  clients : ∀ aconf, (s.confs aconf).clients = refs s.attached aconf
  attached : ∀ client, ∀ aconf ∈ s.attached client, s.Alive aconf
  classed : ∀ aconf c, (s.confs aconf).cClass = some c → (s.confs aconf).kind ≠ .other ∧ c < s.madeClasses
  live : ∀ aconf c, s.Alive aconf → (s.confs aconf).cClass = some c → (s.classes c).freed = false
  current : ∀ aconf, s.Alive aconf → (s.confs aconf).illegal = false →
    aconf ∈ s.configItems ++ s.atable ∧ ∀ c, (s.confs aconf).cClass = some c → c ∈ s.classList
  old : ∀ aconf, s.Alive aconf → (s.confs aconf).illegal = true → 0 < refs s.attached aconf

/-- No class on the list is marked for deletion. -/
def State.Settled (s : State κ) : Prop := ∀ c ∈ s.classList, 0 ≤ (s.classes c).maxLinks

variable {s : State κ}

theorem State.Sound.right (sound : s.Sound) : s.Right where
  names := sound.names
  links c _ _ := sound.links c
  noneFreed client aconf member c points := sound.live aconf c (sound.attached client aconf member) points

theorem start_sound : (start κ).Sound := by
  have none (aconf : ℕ) : refs (start κ).attached aconf = 0 := by
    by_contra some_
    obtain ⟨client, member⟩ := refs_pos_iff.mp (Nat.pos_of_ne_zero some_)
    cases member
  constructor
  · exact List.nodup_singleton _
  · intro c member
    obtain rfl := List.mem_singleton.mp member
    exact ⟨Nat.one_pos, rfl⟩
  · exact Int.le_refl 0
  · intro c
    have empty : (start κ).attachments c = 0 := by
      by_contra some_
      obtain ⟨client, member⟩ := refs_pos_iff.mp (Nat.pos_of_ne_zero some_)
      cases member
    rw [empty]
    simp only [start]
    split <;> rfl
  · intro aconf
    rw [none]
    rfl
  · intro client aconf member
    cases member
  · intro aconf c points
    cases points
  · intro aconf c alive
    cases alive.1
  · intro aconf alive
    cases alive.1
  · intro aconf alive
    cases alive.1

omit [Fintype κ] in
theorem start_settled : (start κ).Settled := by
  intro c member
  obtain rfl := List.mem_singleton.mp member
  exact Int.le_refl 0

/-- A class that a conf in use points to has a link. -/
theorem attachments_pos {aconf c : ℕ} {client : κ} (member : aconf ∈ s.attached client)
    (points : s.target aconf = some c) : 0 < s.attachments c :=
  refs_pos_iff.mpr ⟨client, List.mem_map.mpr ⟨aconf, member, points⟩⟩

/-- What the confs in use point to decides about the links. -/
theorem attachments_congr {s' : State κ} (attached : s'.attached = s.attached)
    (targets : ∀ client, ∀ aconf ∈ s.attached client, s'.target aconf = s.target aconf) (c : ℕ) :
    s'.attachments c = s.attachments c := by
  have same : (fun client => (s'.attached client).map s'.target) = fun client => (s.attached client).map s.target := by
    funext client
    rw [attached]
    exact List.map_congr_left (targets client)
  rw [State.attachments, State.attachments, same]

theorem State.Sound.first_notMem (sound : s.Sound) : firstClass ∉ s.rest := by
  have nodup := List.Nodup.of_map _ sound.names
  exact (List.nodup_cons.mp nodup).1

theorem State.Sound.target_eq (sound : s.Sound) (aconf : ℕ) : s.target aconf = (s.confs aconf).cClass := by
  rw [State.target]
  split
  · next other =>
    cases points : (s.confs aconf).cClass with
    | none => rfl
    | some c => exact absurd other (sound.classed aconf c points).1
  · rfl

/-! ### Loads -/

theorem ConfItem.clear_cClass (item : ConfItem) : item.clear.cClass = item.cClass := by
  rw [ConfItem.clear]
  split <;> rfl

theorem ConfItem.clear_kind (item : ConfItem) : item.clear.kind = item.kind := by
  rw [ConfItem.clear]
  split <;> rfl

theorem ConfItem.clear_clients (item : ConfItem) : item.clear.clients = item.clients := by
  rw [ConfItem.clear]
  split <;> rfl

theorem State.Sound.clearOutOldConf (sound : s.Sound) : s.clearOutOldConf.Sound := by
  have confs (aconf : ℕ) : s.clearOutOldConf.confs aconf =
      if aconf ∈ s.configItems ++ s.atable then (s.confs aconf).clear else s.confs aconf := rfl
  have classes (c : ℕ) : s.clearOutOldConf.classes c =
      if c ∈ s.rest then { s.classes c with maxLinks := -1 } else s.classes c := rfl
  have kept (aconf : ℕ) : (s.clearOutOldConf.confs aconf).cClass = (s.confs aconf).cClass ∧
      (s.clearOutOldConf.confs aconf).kind = (s.confs aconf).kind ∧
      (s.clearOutOldConf.confs aconf).clients = (s.confs aconf).clients := by
    rw [confs]
    split
    · exact ⟨ConfItem.clear_cClass _, ConfItem.clear_kind _, ConfItem.clear_clients _⟩
    · exact ⟨rfl, rfl, rfl⟩
  have same (c : ℕ) : (s.clearOutOldConf.classes c).className = (s.classes c).className ∧
      (s.clearOutOldConf.classes c).freed = (s.classes c).freed ∧
      (s.clearOutOldConf.classes c).links = (s.classes c).links := by
    rw [classes]
    split <;> exact ⟨rfl, rfl, rfl⟩
  have attached : s.clearOutOldConf.attached = s.attached := rfl
  have alive (aconf : ℕ) (after : s.clearOutOldConf.Alive aconf) : s.Alive aconf ∧
      (aconf ∈ s.configItems ++ s.atable → (s.clearOutOldConf.confs aconf).illegal = true ∧
        0 < refs s.attached aconf) := by
    obtain ⟨made, here⟩ := after
    rw [confs] at here ⊢
    split at here
    · rw [ConfItem.clear] at here ⊢
      split at here
      · next used =>
        rw [if_pos ‹_›, if_pos used]
        rw [sound.clients] at used
        exact ⟨⟨made, here⟩, fun _ => ⟨rfl, by omega⟩⟩
      · cases here
    · next other => exact ⟨⟨made, here⟩, fun member => absurd member other⟩
  constructor
  · rw [funext fun c => (same c).1]
    exact sound.names
  · intro c member
    rw [(same c).2.1]
    exact sound.listed c member
  · rw [classes, if_neg sound.first_notMem]
    exact sound.firstStays
  · intro c
    rw [(same c).2.2, sound.links, attachments_congr attached]
    intro client aconf _
    rw [State.target, State.target, (kept aconf).1, (kept aconf).2.1]
  · intro aconf
    rw [(kept aconf).2.2]
    exact sound.clients aconf
  · intro client aconf member
    have before := sound.attached client aconf member
    refine ⟨before.1, ?_⟩
    rw [confs]
    split
    · have used : (s.confs aconf).clients ≠ 0 := by
        have positive : 0 < refs s.attached aconf := refs_pos_iff.mpr ⟨client, member⟩
        rw [sound.clients]
        omega
      rw [ConfItem.clear, if_pos used]
      exact before.2
    · exact before.2
  · intro aconf c points
    rw [(kept aconf).1] at points
    rw [(kept aconf).2.1]
    exact sound.classed aconf c points
  · intro aconf c after points
    rw [(kept aconf).1] at points
    rw [(same c).2.1]
    exact sound.live aconf c (alive aconf after).1 points
  · -- nothing that is left is current
    intro aconf after legal
    obtain ⟨before, listed⟩ := alive aconf after
    by_cases member : aconf ∈ s.configItems ++ s.atable
    · rw [(listed member).1] at legal
      cases legal
    · rw [confs, if_neg member] at legal
      exact absurd (sound.current aconf before legal).1 member
  · intro aconf after illegal
    obtain ⟨before, listed⟩ := alive aconf after
    by_cases member : aconf ∈ s.configItems ++ s.atable
    · exact (listed member).2
    · rw [confs, if_neg member] at illegal
      exact sound.old aconf before illegal

/-- A class that is not the first gets other limits. -/
theorem State.Sound.setClass (sound : s.Sound) {c : ℕ} (notFirst : c ≠ firstClass) {cls : ConnClass}
    (className : cls.className = (s.classes c).className) (links : cls.links = (s.classes c).links)
    (freed : cls.freed = (s.classes c).freed) : (s.setClass c cls).Sound := by
  have classes : (s.setClass c cls).classes = Function.update s.classes c cls := rfl
  have same (d : ℕ) : ((s.setClass c cls).classes d).className = (s.classes d).className ∧
      ((s.setClass c cls).classes d).links = (s.classes d).links ∧
      ((s.setClass c cls).classes d).freed = (s.classes d).freed := by
    rw [classes]
    by_cases this : d = c
    · subst this
      rw [Function.update_self]
      exact ⟨className, links, freed⟩
    · rw [Function.update_of_ne this]
      exact ⟨rfl, rfl, rfl⟩
  constructor
  · rw [funext fun d => (same d).1]
    exact sound.names
  · intro d listed
    rw [(same d).2.2]
    exact sound.listed d listed
  · rw [classes, Function.update_of_ne notFirst.symm]
    exact sound.firstStays
  · intro d
    rw [(same d).2.1]
    exact sound.links d
  · exact sound.clients
  · exact sound.attached
  · exact sound.classed
  · intro aconf d alive points
    rw [(same d).2.2]
    exact sound.live aconf d alive points
  · exact sound.current
  · exact sound.old

/-- No conf points to a class that has not been made. -/
theorem State.Sound.attachments_made (sound : s.Sound) : s.attachments s.madeClasses = 0 := by
  by_contra some_
  obtain ⟨client, member⟩ := refs_pos_iff.mp (Nat.pos_of_ne_zero some_)
  obtain ⟨aconf, -, points⟩ := List.mem_map.mp member
  rw [sound.target_eq] at points
  exact Nat.lt_irrefl _ (sound.classed aconf _ points).2

/-- A class with a new name comes behind the first. -/
theorem State.Sound.newClass (sound : s.Sound) {cls : ConnClass}
    (fresh : ∀ c ∈ s.classList, (s.classes c).className ≠ cls.className) (links : cls.links = 0)
    (freed : cls.freed = false) :
    ({ s.setClass s.madeClasses cls with
      madeClasses := s.madeClasses + 1
      rest := s.madeClasses :: s.rest } : State κ).Sound := by
  have before (d : ℕ) (below : d < s.madeClasses) : Function.update s.classes s.madeClasses cls d = s.classes d :=
    Function.update_of_ne below.ne _ _
  have first := before firstClass (sound.listed firstClass List.mem_cons_self).1
  constructor
  · have rest : s.rest.map (fun d => (Function.update s.classes s.madeClasses cls d).className) =
        s.rest.map fun d => (s.classes d).className :=
      List.map_congr_left fun d listed => by rw [before d (sound.listed d (List.mem_cons_of_mem _ listed)).1]
    simp only [State.classList, State.setClass, List.map_cons, Function.update_self, first, rest]
    have names := List.nodup_cons.mp sound.names
    refine List.nodup_cons.mpr ⟨?_, List.nodup_cons.mpr ⟨?_, names.2⟩⟩
    · rw [List.mem_cons, not_or]
      exact ⟨fresh firstClass List.mem_cons_self, names.1⟩
    · intro member
      obtain ⟨d, listed, same⟩ := List.mem_map.mp member
      exact fresh d (List.mem_cons_of_mem _ listed) same
  · have old (d : ℕ) (listed : d ∈ s.classList) : d < s.madeClasses + 1 ∧
        (Function.update s.classes s.madeClasses cls d).freed = false := by
      rw [before d (sound.listed d listed).1]
      exact ⟨Nat.lt_succ_of_lt (sound.listed d listed).1, (sound.listed d listed).2⟩
    intro d listed
    rcases List.mem_cons.mp listed with rfl | listed
    · exact old _ List.mem_cons_self
    · rcases List.mem_cons.mp listed with rfl | listed
      · simp only [State.setClass, Function.update_self, freed, and_true]
        exact Nat.lt_succ_self _
      · exact old d (List.mem_cons_of_mem _ listed)
  · simp only [State.setClass, first]
    exact sound.firstStays
  · intro d
    have same : (Function.update s.classes s.madeClasses cls d).links = (s.classes d).links := by
      by_cases this : d = s.madeClasses
      · subst this
        rw [Function.update_self, sound.links, sound.attachments_made, links]
        rfl
      · rw [Function.update_of_ne this]
    exact same.trans (sound.links d)
  · exact sound.clients
  · exact sound.attached
  · intro aconf d points
    obtain ⟨kind, below⟩ := sound.classed aconf d points
    exact ⟨kind, Nat.lt_succ_of_lt below⟩
  · intro aconf d alive points
    simp only [State.setClass, before d (sound.classed aconf d points).2]
    exact sound.live aconf d alive points
  · intro aconf alive legal
    obtain ⟨listed, points⟩ := sound.current aconf alive legal
    refine ⟨listed, fun d here => ?_⟩
    rcases List.mem_cons.mp (points d here) with rfl | member
    · exact List.mem_cons_self
    · exact List.mem_cons_of_mem _ (List.mem_cons_of_mem _ member)
  · exact sound.old

/-- A class block. The class is found afterwards. -/
theorem State.Sound.addClass (sound : s.Sound) {name : List Char} (other : name ≠ (s.classes firstClass).className)
    (ping confreq maxli sendq : ℤ) :
    (s.addClass (some name) ping confreq maxli sendq).Sound ∧
      Found (s.addClass (some name) ping confreq maxli sendq) (.block (.cls (some name) ping confreq maxli sendq)) := by
  obtain ⟨c, member, found, here⟩ | ⟨found, none⟩ := findClass_cases s name
  · have notFirst : c ≠ firstClass := by
      rintro rfl
      exact other here.symm
    have shape : s.addClass (some name) ping confreq maxli sendq = s.setClass c
        ⟨name, confreq, ping, maxli, if 0 < sendq then sendq else defaultSendq, (s.classes c).links,
          (s.classes c).freed⟩ := by
      simp only [State.addClass, found, if_neg notFirst]
    have after : (s.addClass (some name) ping confreq maxli sendq).Sound := by
      rw [shape]
      exact sound.setClass notFirst here.symm rfl rfl
    have cls : (s.addClass (some name) ping confreq maxli sendq).classes c =
        ⟨name, confreq, ping, maxli, if 0 < sendq then sendq else defaultSendq, (s.classes c).links,
          (s.classes c).freed⟩ := by
      rw [shape]
      exact Function.update_self _ _ _
    have listed : c ∈ (s.addClass (some name) ping confreq maxli sendq).classList := by
      rw [shape]
      exact member
    have again := findClass_of_mem after.names listed
    rw [cls] at again
    refine ⟨after, ?_⟩
    simp only [Found, again, cls, and_self]
  · have shape : s.addClass (some name) ping confreq maxli sendq =
        { s.setClass s.madeClasses ⟨name, confreq, ping, maxli, if 0 < sendq then sendq else defaultSendq, 0, false⟩ with
          madeClasses := s.madeClasses + 1
          rest := s.madeClasses :: s.rest } := by
      simp only [State.addClass, found, if_pos]
    have after : (s.addClass (some name) ping confreq maxli sendq).Sound := by
      rw [shape]
      exact sound.newClass none rfl rfl
    have cls : (s.addClass (some name) ping confreq maxli sendq).classes s.madeClasses =
        ⟨name, confreq, ping, maxli, if 0 < sendq then sendq else defaultSendq, 0, false⟩ := by
      rw [shape]
      exact Function.update_self _ _ _
    have listed : s.madeClasses ∈ (s.addClass (some name) ping confreq maxli sendq).classList := by
      rw [shape]
      exact List.mem_cons_of_mem _ List.mem_cons_self
    have again := findClass_of_mem after.names listed
    rw [cls] at again
    refine ⟨after, ?_⟩
    simp only [Found, again, cls, and_self]

/-- Another block. -/
theorem State.Sound.addConf (sound : s.Sound) (kind : ConfKind) (className : Option (List Char)) (exempt : Bool) :
    (s.addConf kind className exempt).Sound := by
  have confs : (s.addConf kind className exempt).confs = Function.update s.confs s.madeConfs
      ⟨kind, false, 0, if kind = .other then none else some (s.confClass className), exempt, false⟩ := rfl
  have made : (s.addConf kind className exempt).madeConfs = s.madeConfs + 1 := rfl
  have attached : (s.addConf kind className exempt).attached = s.attached := rfl
  have unused : refs s.attached s.madeConfs = 0 := by
    by_contra some_
    obtain ⟨client, member⟩ := refs_pos_iff.mp (Nat.pos_of_ne_zero some_)
    exact Nat.lt_irrefl _ (sound.attached client _ member).1
  have before (aconf : ℕ) (below : aconf ≠ s.madeConfs) :
      (s.addConf kind className exempt).confs aconf = s.confs aconf := Function.update_of_ne below _ _
  have new : (s.addConf kind className exempt).confs s.madeConfs =
      ⟨kind, false, 0, if kind = .other then none else some (s.confClass className), exempt, false⟩ :=
    Function.update_self _ _ _
  have points (c : ℕ) (here : (if kind = .other then none else some (s.confClass className)) = some c) :
      kind ≠ .other ∧ c ∈ s.classList := by
    split at here
    · cases here
    · next counts =>
      obtain rfl := Option.some.inj here
      exact ⟨counts, mem_confClass s className⟩
  have alive (aconf : ℕ) (below : aconf ≠ s.madeConfs) (after : (s.addConf kind className exempt).Alive aconf) :
      s.Alive aconf := by
    obtain ⟨old, here⟩ := after
    rw [before aconf below] at here
    rw [made] at old
    exact ⟨by omega, here⟩
  have listed : ∀ aconf ∈ s.configItems ++ s.atable,
      aconf ∈ (s.addConf kind className exempt).configItems ++ (s.addConf kind className exempt).atable := by
    intro aconf member
    simp only [State.addConf]
    rcases List.mem_append.mp member with item | address
    · refine List.mem_append_left _ ?_
      split
      · exact item
      · exact List.mem_cons_of_mem _ item
    · refine List.mem_append_right _ ?_
      split
      · exact List.mem_cons_of_mem _ address
      · exact address
  constructor
  · exact sound.names
  · exact sound.listed
  · exact sound.firstStays
  · intro c
    refine (sound.links c).trans (congrArg Nat.cast (attachments_congr attached ?_ c).symm)
    intro client aconf member
    have below := (sound.attached client aconf member).1
    rw [State.target, State.target, before aconf below.ne]
  · intro aconf
    by_cases this : aconf = s.madeConfs
    · subst this
      rw [new, attached, unused]
      rfl
    · rw [before aconf this, attached]
      exact sound.clients aconf
  · intro client aconf member
    obtain ⟨below, here⟩ := sound.attached client aconf member
    refine ⟨Nat.lt_succ_of_lt below, ?_⟩
    rw [before aconf below.ne]
    exact here
  · intro aconf c here
    by_cases this : aconf = s.madeConfs
    · subst this
      rw [new] at here ⊢
      exact ⟨(points c here).1, (sound.listed c (points c here).2).1⟩
    · rw [before aconf this] at here ⊢
      exact sound.classed aconf c here
  · intro aconf c after here
    by_cases this : aconf = s.madeConfs
    · subst this
      rw [new] at here
      exact (sound.listed c (points c here).2).2
    · rw [before aconf this] at here
      exact sound.live aconf c (alive aconf this after) here
  · intro aconf after legal
    by_cases this : aconf = s.madeConfs
    · subst this
      refine ⟨?_, fun c here => ?_⟩
      · simp only [State.addConf]
        split
        · exact List.mem_append_right _ List.mem_cons_self
        · exact List.mem_append_left _ List.mem_cons_self
      · rw [new] at here
        exact (points c here).2
    · rw [before aconf this] at legal ⊢
      obtain ⟨member, here⟩ := sound.current aconf (alive aconf this after) legal
      exact ⟨listed aconf member, here⟩
  · intro aconf after illegal
    by_cases this : aconf = s.madeConfs
    · subst this
      rw [new] at illegal
      cases illegal
    · rw [before aconf this] at illegal
      exact sound.old aconf (alive aconf this after) illegal

/-- The end of a load. What is on the list then is not marked. -/
theorem State.Sound.checkClass (sound : s.Sound) (safe : Safe s .checkClass) :
    s.checkClass.Sound ∧ s.checkClass.Settled := by
  have classes (c : ℕ) : s.checkClass.classes c =
      if c ∈ s.classList ∧ (s.classes c).maxLinks < 0 ∧ (s.classes c).links ≤ 0 then
        { s.classes c with freed := true }
      else s.classes c := rfl
  have same (c : ℕ) : (s.checkClass.classes c).className = (s.classes c).className ∧
      (s.checkClass.classes c).links = (s.classes c).links ∧
      (s.checkClass.classes c).maxLinks = (s.classes c).maxLinks := by
    rw [classes]
    split <;> exact ⟨rfl, rfl, rfl⟩
  have rest (c : ℕ) : c ∈ s.checkClass.rest ↔ c ∈ s.rest ∧ 0 ≤ (s.classes c).maxLinks := by
    refine List.mem_filter.trans (and_congr_right fun _ => ?_)
    simp
  have list (c : ℕ) : c ∈ s.checkClass.classList ↔ c ∈ s.classList ∧ 0 ≤ (s.classes c).maxLinks := by
    rw [State.classList, State.classList, List.mem_cons, List.mem_cons, rest]
    constructor
    · rintro (rfl | ⟨member, stays⟩)
      · exact ⟨.inl rfl, sound.firstStays⟩
      · exact ⟨.inr member, stays⟩
    · rintro ⟨rfl | member, stays⟩
      · exact .inl rfl
      · exact .inr ⟨member, stays⟩
  have kept (c : ℕ) (stays : 0 ≤ (s.classes c).maxLinks) : (s.checkClass.classes c).freed = (s.classes c).freed := by
    rw [classes, if_neg fun gone => Int.not_lt.mpr stays gone.2.1]
  constructor
  · constructor
    · rw [funext fun c => (same c).1]
      exact List.Nodup.sublist (List.Sublist.map _ (List.Sublist.cons_cons _ List.filter_sublist)) sound.names
    · intro c member
      obtain ⟨listed, stays⟩ := (list c).mp member
      rw [kept c stays]
      exact sound.listed c listed
    · rw [(same firstClass).2.2]
      exact sound.firstStays
    · intro c
      rw [(same c).2.1]
      exact sound.links c
    · exact sound.clients
    · exact sound.attached
    · exact sound.classed
    · intro aconf c alive points
      have before := sound.live aconf c alive points
      rw [classes]
      split
      · next gone =>
        exfalso
        obtain ⟨-, marked, unlinked⟩ := gone
        cases illegal : (s.confs aconf).illegal with
        | true =>
          -- a conf of an earlier load is in use, so that the class has links
          obtain ⟨client, member⟩ := refs_pos_iff.mp (sound.old aconf alive illegal)
          have linked := attachments_pos member ((sound.target_eq aconf).trans points)
          have links := sound.links c
          omega
        | false =>
          have stays := safe aconf (sound.current aconf alive illegal).1 c points
          omega
      · exact before
    · intro aconf alive legal
      obtain ⟨member, points⟩ := sound.current aconf alive legal
      exact ⟨member, fun c here => (list c).mpr ⟨points c here, safe aconf member c here⟩⟩
    · exact sound.old
  · intro c member
    rw [(same c).2.2]
    exact ((list c).mp member).2

/-! ### Clients -/

variable [DecidableEq κ]

omit [Fintype κ] in
/-- The confs of one client, as their classes. -/
theorem map_update {α : Type} (attached : κ → List ℕ) (client : κ) (list : List ℕ) (f : ℕ → α) :
    (fun k => (Function.update attached client list k).map f) =
      Function.update (fun k => (attached k).map f) client (list.map f) := by
  funext k
  by_cases here : k = client
  · subst here
    rw [Function.update_self, Function.update_self]
  · rw [Function.update_of_ne here, Function.update_of_ne here]

omit [Fintype κ] in
/-- What `attach_conf` changes. -/
theorem attachConf_cases (s : State κ) (client : κ) (aconf : ℕ) :
    (s.attachConf client aconf).1 = s ∨
      (s.confs aconf).illegal = false ∧ ∃ classes : ℕ → ConnClass,
        (s.attachConf client aconf).1 =
          { s with
            attached := Function.update s.attached client (aconf :: s.attached client)
            confs := Function.update s.confs aconf { s.confs aconf with clients := (s.confs aconf).clients + 1 }
            classes := classes } ∧
        ∀ c, classes c =
          { s.classes c with links := (s.classes c).links + if s.target aconf = some c then 1 else 0 } := by
  simp only [State.attachConf]
  split
  · exact .inl rfl
  · split
    · exact .inl rfl
    · next legal =>
      split
      · exact .inl rfl
      · refine .inr ⟨by simpa using legal, ?_⟩
        cases target : s.target aconf with
        | none => exact ⟨s.classes, rfl, fun c => by simp⟩
        | some c =>
          refine ⟨Function.update s.classes c { s.classes c with links := (s.classes c).links + 1 }, rfl, fun d => ?_⟩
          by_cases here : d = c
          · subst here
            rw [Function.update_self, if_pos rfl]
          · rw [Function.update_of_ne here, if_neg (fun same => here (Option.some.inj same).symm), Int.add_zero]

theorem State.Sound.attachConf (sound : s.Sound) (client : κ) {aconf : ℕ} (alive : s.Alive aconf) :
    (s.attachConf client aconf).1.Sound := by
  obtain same | ⟨legal, classes, shape, links⟩ := attachConf_cases s client aconf
  · rwa [same]
  rw [shape]
  have confs (b : ℕ) : ∃ n, Function.update s.confs aconf
      { s.confs aconf with clients := (s.confs aconf).clients + 1 } b = { s.confs b with clients := n } ∧
        n = (s.confs b).clients + if b = aconf then 1 else 0 := by
    by_cases here : b = aconf
    · subst here
      exact ⟨_, Function.update_self _ _ _, by rw [if_pos rfl]⟩
    · exact ⟨_, Function.update_of_ne here _ _, by rw [if_neg here, Int.add_zero]⟩
  have more (b : ℕ) : refs (Function.update s.attached client (aconf :: s.attached client)) b =
      refs s.attached b + if b = aconf then 1 else 0 := refs_put (.refl _)
  have targets : ({ s with
      attached := Function.update s.attached client (aconf :: s.attached client)
      confs := Function.update s.confs aconf { s.confs aconf with clients := (s.confs aconf).clients + 1 }
      classes := classes } : State κ).target = s.target := by
    funext b
    obtain ⟨n, same, -⟩ := confs b
    simp only [State.target, same]
  constructor
  · simp only [State.classList, links]
    exact sound.names
  · intro c member
    simp only [links]
    exact sound.listed c member
  · simp only [links]
    exact sound.firstStays
  · intro c
    have more : refs (Function.update (fun k => (s.attached k).map s.target) client
        ((aconf :: s.attached client).map s.target)) (some c) =
          s.attachments c + if some c = s.target aconf then 1 else 0 := refs_put (.refl _)
    rw [State.attachments, targets]
    simp only [links, map_update, more, sound.links, eq_comm (a := some c)]
    split <;> rfl
  · intro b
    obtain ⟨n, same, clients⟩ := confs b
    simp only [same, clients, more, sound.clients b]
    split <;> rfl
  · intro k b member
    obtain ⟨n, same, -⟩ := confs b
    have before : s.Alive b := by
      by_cases here : k = client
      · subst here
        simp only [Function.update_self] at member
        rcases List.mem_cons.mp member with rfl | member
        · exact alive
        · exact sound.attached k b member
      · simp only [Function.update_of_ne here] at member
        exact sound.attached k b member
    refine ⟨before.1, ?_⟩
    simp only [same]
    exact before.2
  · intro b c points
    obtain ⟨n, same, -⟩ := confs b
    simp only [same] at points ⊢
    exact sound.classed b c points
  · intro b c after points
    obtain ⟨n, same, -⟩ := confs b
    obtain ⟨made, here⟩ := after
    simp only [same] at points here
    simp only [links]
    exact sound.live b c ⟨made, here⟩ points
  · intro b after legal
    obtain ⟨n, same, -⟩ := confs b
    obtain ⟨made, here⟩ := after
    simp only [same] at legal here ⊢
    exact sound.current b ⟨made, here⟩ legal
  · intro b after illegal
    obtain ⟨n, same, -⟩ := confs b
    obtain ⟨made, here⟩ := after
    simp only [same] at illegal here
    have before := sound.old b ⟨made, here⟩ illegal
    simp only [more]
    omega

omit [Fintype κ] in
theorem State.Settled.attachConf (settled : s.Settled) (client : κ) (aconf : ℕ) :
    (s.attachConf client aconf).1.Settled := by
  obtain same | ⟨-, classes, shape, links⟩ := attachConf_cases s client aconf
  · rwa [same]
  · rw [shape]
    intro c member
    simp only [links]
    exact settled c member

/-- The last client of a class that is marked leaves it. -/
def State.Goes (s : State κ) (aconf c : ℕ) : Prop :=
  (s.confs aconf).cClass = some c ∧ (s.classes c).maxLinks = -1 ∧ (s.classes c).links = 1

omit [DecidableEq κ] in
/-- What `leaveClass` changes: the links, and if the class goes, the pointer to it. -/
theorem State.Sound.leaveClass (sound : s.Sound) {client : κ} {aconf : ℕ} (member : aconf ∈ s.attached client) :
    ∃ classes cClass, s.leaveClass aconf =
        { s with
          classes := classes
          confs := Function.update s.confs aconf { s.confs aconf with cClass := cClass } } ∧
      (∀ c, (classes c).className = (s.classes c).className ∧ (classes c).maxLinks = (s.classes c).maxLinks ∧
        (classes c).links = (s.classes c).links - (if s.target aconf = some c then 1 else 0) ∧
        ((classes c).freed = true ↔ (s.classes c).freed = true ∨ s.Goes aconf c)) ∧
      ∀ c, cClass = some c ↔ (s.confs aconf).cClass = some c ∧ ¬s.Goes aconf c := by
  rw [sound.target_eq]
  cases points : (s.confs aconf).cClass with
  | none =>
    refine ⟨s.classes, none, ?_, fun c => ⟨rfl, rfl, by simp, ?_⟩, by simp⟩
    · have same : ({ s.confs aconf with cClass := none } : ConfItem) = s.confs aconf := by rw [← points]
      simp only [State.leaveClass, points, same, Function.update_eq_self]
    · rw [State.Goes, points]
      simp
  | some c =>
    have linked : 0 < (s.classes c).links := by
      have positive := attachments_pos member ((sound.target_eq aconf).trans points)
      rw [sound.links]
      exact Int.natCast_pos.mpr positive
    have counts : (s.confs aconf).kind ≠ .other ∧ 0 < (s.classes c).links := ⟨(sound.classed aconf c points).1, linked⟩
    by_cases goes : (s.classes c).maxLinks = -1 ∧ (s.classes c).links = 1
    · refine ⟨Function.update s.classes c { s.classes c with links := (s.classes c).links - 1, freed := true }, none,
        ?_, fun d => ?_, fun d => ?_⟩
      · have zero : (s.classes c).links - 1 = 0 := by omega
        simp only [State.leaveClass, points, if_pos counts]
        rw [if_pos ⟨goes.1, zero⟩]
        rfl
      · by_cases here : d = c
        · subst here
          rw [Function.update_self, if_pos rfl]
          exact ⟨rfl, rfl, rfl, iff_of_true rfl (.inr ⟨points, goes⟩)⟩
        · rw [Function.update_of_ne here, if_neg (fun same => here (Option.some.inj same).symm), Int.sub_zero]
          refine ⟨rfl, rfl, rfl, (or_iff_left fun gone => here ?_).symm⟩
          exact Option.some.inj (gone.1.symm.trans points)
      · refine iff_of_false (fun same => by cases same) fun both => both.2 ?_
        obtain rfl := Option.some.inj both.1
        exact ⟨points, goes⟩
    · refine ⟨Function.update s.classes c { s.classes c with links := (s.classes c).links - 1 }, some c,
        ?_, fun d => ?_, fun d => ?_⟩
      · have same : ({ s.confs aconf with cClass := some c } : ConfItem) = s.confs aconf := by rw [← points]
        have stays : ¬((s.classes c).maxLinks = -1 ∧ (s.classes c).links - 1 = 0) := fun both => goes ⟨both.1, by omega⟩
        simp only [State.leaveClass, points, if_pos counts]
        rw [if_neg stays, same, Function.update_eq_self]
        rfl
      · by_cases here : d = c
        · subst here
          rw [Function.update_self, if_pos rfl]
          exact ⟨rfl, rfl, rfl, (or_iff_left fun gone => goes gone.2).symm⟩
        · rw [Function.update_of_ne here, if_neg (fun same => here (Option.some.inj same).symm), Int.sub_zero]
          refine ⟨rfl, rfl, rfl, (or_iff_left fun gone => here ?_).symm⟩
          exact Option.some.inj (gone.1.symm.trans points)
      · refine ⟨fun same => ⟨same, fun gone => goes ?_⟩, And.left⟩
        rw [Option.some.inj same]
        exact gone.2

/-- What is left when a client has left a conf. -/
structure Left (s s' : State κ) (client : κ) (aconf : ℕ) : Prop where
  rest : s'.rest = s.rest
  made : s'.madeClasses = s.madeClasses ∧ s'.madeConfs = s.madeConfs
  lists : s'.configItems = s.configItems ∧ s'.atable = s.atable
  attached : s'.attached = Function.update s.attached client ((s.attached client).erase aconf)
  classes : ∀ c, (s'.classes c).className = (s.classes c).className ∧
    (s'.classes c).maxLinks = (s.classes c).maxLinks ∧
    (s'.classes c).links = (s.classes c).links - (if s.target aconf = some c then 1 else 0) ∧
    ((s'.classes c).freed = true ↔ (s.classes c).freed = true ∨ s.Goes aconf c)
  others : ∀ b, b ≠ aconf → s'.confs b = s.confs b
  conf : (s'.confs aconf).kind = (s.confs aconf).kind ∧ (s'.confs aconf).illegal = (s.confs aconf).illegal ∧
    (s'.confs aconf).clients = (s.confs aconf).clients - 1 ∧
    (∀ c, (s'.confs aconf).cClass = some c ↔ (s.confs aconf).cClass = some c ∧ ¬s.Goes aconf c) ∧
    ((s'.confs aconf).freed = true ↔ (s.confs aconf).freed = true ∨
      (s.confs aconf).clients - 1 = 0 ∧ (s.confs aconf).illegal = true)

theorem State.Sound.left (sound : s.Sound) {client : κ} {aconf : ℕ} (member : aconf ∈ s.attached client) :
    Left s (s.detachConf client aconf).1 client aconf := by
  obtain ⟨classes, cClass, shape, same, points⟩ := sound.leaveClass member
  have detached : (s.detachConf client aconf).1 =
      { s with
        classes := classes
        confs := Function.update s.confs aconf
          { s.confs aconf with
            cClass := cClass
            clients := (s.confs aconf).clients - 1
            freed := (s.confs aconf).freed || decide ((s.confs aconf).clients - 1 = 0 ∧ (s.confs aconf).illegal) }
        attached := Function.update s.attached client ((s.attached client).erase aconf) } := by
    simp only [State.detachConf, if_pos member, shape, State.setConf, Function.update_self, Function.update_idem]
    by_cases last : (s.confs aconf).clients - 1 = 0 ∧ (s.confs aconf).illegal = true
    · rw [if_pos last, decide_eq_true last, Bool.or_true]
    · rw [if_neg last, decide_eq_false last, Bool.or_false]
  rw [detached]
  constructor
  · rfl
  · exact ⟨rfl, rfl⟩
  · exact ⟨rfl, rfl⟩
  · rfl
  · exact same
  · intro b other
    exact Function.update_of_ne other _ _
  · simp only [Function.update_self, true_and]
    refine ⟨points, ?_⟩
    rw [Bool.or_eq_true, decide_eq_true_iff]

theorem Left.sound {s' : State κ} {client : κ} {aconf : ℕ} (left : Left s s' client aconf) (sound : s.Sound)
    (settled : s.Settled) (member : aconf ∈ s.attached client) : s'.Sound := by
  have fewer (b : ℕ) : refs s'.attached b + (if b = aconf then 1 else 0) = refs s.attached b := by
    rw [left.attached]
    exact refs_take (List.perm_cons_erase member)
  have still (k : κ) : ∀ b ∈ s'.attached k, b ∈ s.attached k := by
    intro b member
    rw [left.attached] at member
    by_cases here : k = client
    · subst here
      rw [Function.update_self] at member
      exact List.mem_of_mem_erase member
    · rwa [Function.update_of_ne here] at member
  have counts (c : ℕ) : refs (fun k => (s'.attached k).map s.target) (some c) +
      (if some c = s.target aconf then 1 else 0) = s.attachments c := by
    simp only [left.attached, map_update]
    exact refs_take ((List.perm_cons_erase member).map _)
  have points (b c : ℕ) : (s'.confs b).cClass = some c → (s.confs b).cClass = some c := by
    intro here
    by_cases this : b = aconf
    · subst this
      exact ((left.conf.2.2.2.1 c).mp here).1
    · rwa [left.others b this] at here
  have alive (b : ℕ) (after : s'.Alive b) : s.Alive b := by
    obtain ⟨made, here⟩ := after
    rw [left.made.2] at made
    refine ⟨made, ?_⟩
    by_cases this : b = aconf
    · subst this
      exact Bool.eq_false_iff.mpr fun freed => Bool.eq_false_iff.mp here (left.conf.2.2.2.2.mpr (.inl freed))
    · rwa [left.others b this] at here
  have list : s'.classList = s.classList := by rw [State.classList, State.classList, left.rest]
  -- when the class goes, nothing else points to it
  have unused {c : ℕ} (goes : s.Goes aconf c) (k : κ) : ∀ b ∈ s'.attached k, s.target b ≠ some c := by
    intro b here target
    have some_ : 0 < refs (fun k => (s'.attached k).map s.target) (some c) :=
      refs_pos_iff.mpr ⟨k, List.mem_map.mpr ⟨b, here, target⟩⟩
    have all := counts c
    rw [if_pos ((sound.target_eq aconf).trans goes.1).symm] at all
    have one := sound.links c
    rw [goes.2.2] at one
    omega
  have targets (k : κ) : ∀ b ∈ s'.attached k, s'.target b = s.target b := by
    intro b here
    by_cases this : b = aconf
    · subst this
      rw [State.target, State.target, left.conf.1]
      split
      · rfl
      · next kind =>
        ext c
        rw [left.conf.2.2.2.1 c, and_iff_left_iff_imp]
        intro point goes
        exact unused goes k b here ((sound.target_eq b).trans point)
    · rw [State.target, State.target, left.others b this]
  constructor
  · rw [list, funext fun c => (left.classes c).1]
    exact sound.names
  · intro c here
    rw [list] at here
    obtain ⟨below, live⟩ := sound.listed c here
    rw [left.made.1]
    refine ⟨below, Bool.eq_false_iff.mpr fun freed => ?_⟩
    rcases (left.classes c).2.2.2.mp freed with before | goes
    · exact Bool.eq_false_iff.mp live before
    · have stays := settled c here
      rw [goes.2.1] at stays
      omega
  · rw [(left.classes firstClass).2.1]
    exact sound.firstStays
  · intro c
    have same : s'.attachments c = refs (fun k => (s'.attached k).map s.target) (some c) := by
      rw [State.attachments, funext fun k => List.map_congr_left (targets k)]
    rw [(left.classes c).2.2.1, sound.links, same, ← counts]
    simp only [eq_comm (a := some c)]
    split <;> omega
  · intro b
    have now := fewer b
    by_cases this : b = aconf
    · subst this
      rw [if_pos rfl] at now
      rw [left.conf.2.2.1, sound.clients]
      omega
    · rw [if_neg this] at now
      rw [left.others b this, sound.clients]
      omega
  · intro k b here
    obtain ⟨below, live⟩ := sound.attached k b (still k b here)
    rw [State.Alive, left.made.2]
    refine ⟨below, ?_⟩
    by_cases this : b = aconf
    · subst this
      refine Bool.eq_false_iff.mpr fun freed => ?_
      rcases left.conf.2.2.2.2.mp freed with before | last
      · exact Bool.eq_false_iff.mp live before
      · -- it is still in use
        have positive : 0 < refs s'.attached b := refs_pos_iff.mpr ⟨k, here⟩
        have now := fewer b
        rw [if_pos rfl] at now
        have zero := last.1
        rw [sound.clients] at zero
        omega
    · rw [left.others b this]
      exact live
  · intro b c here
    obtain ⟨kind, below⟩ := sound.classed b c (points b c here)
    rw [left.made.1]
    refine ⟨?_, below⟩
    by_cases this : b = aconf
    · subst this
      rw [left.conf.1]
      exact kind
    · rw [left.others b this]
      exact kind
  · intro b c after here
    refine Bool.eq_false_iff.mpr fun freed => ?_
    have before := points b c here
    rcases (left.classes c).2.2.2.mp freed with gone | goes
    · exact Bool.eq_false_iff.mp (sound.live b c (alive b after) before) gone
    · have this : b ≠ aconf := by
        rintro rfl
        exact ((left.conf.2.2.2.1 c).mp here).2 goes
      cases illegal : (s.confs b).illegal with
      | true =>
        have used := sound.old b (alive b after) illegal
        have now := fewer b
        rw [if_neg this] at now
        obtain ⟨k, attached⟩ := refs_pos_iff.mp (show 0 < refs s'.attached b by omega)
        exact unused goes k b attached ((sound.target_eq b).trans before)
      | false =>
        have stays := settled c ((sound.current b (alive b after) illegal).2 c before)
        rw [goes.2.1] at stays
        omega
  · intro b after legal
    have before : (s.confs b).illegal = false := by
      by_cases this : b = aconf
      · subst this
        rwa [left.conf.2.1] at legal
      · rwa [left.others b this] at legal
    obtain ⟨listed, here⟩ := sound.current b (alive b after) before
    rw [left.lists.1, left.lists.2, list]
    exact ⟨listed, fun c point => here c (points b c point)⟩
  · intro b after illegal
    have now := fewer b
    by_cases this : b = aconf
    · subst this
      rw [if_pos rfl] at now
      rw [left.conf.2.1] at illegal
      by_contra none
      refine Bool.eq_false_iff.mp after.2 (left.conf.2.2.2.2.mpr (.inr ⟨?_, illegal⟩))
      rw [sound.clients]
      omega
    · rw [if_neg this] at now
      rw [left.others b this] at illegal
      have used := sound.old b (alive b after) illegal
      omega

theorem State.Sound.detachConf (sound : s.Sound) (settled : s.Settled) (client : κ) (aconf : ℕ) :
    (s.detachConf client aconf).1.Sound ∧ (s.detachConf client aconf).1.Settled := by
  by_cases member : aconf ∈ s.attached client
  · have left := sound.left member
    refine ⟨left.sound sound settled member, fun c here => ?_⟩
    rw [State.classList, left.rest] at here
    rw [(left.classes c).2.1]
    exact settled c here
  · have same : (s.detachConf client aconf).1 = s := by rw [State.detachConf, if_neg member]
    rw [same]
    exact ⟨sound, settled⟩

/-! ### Whole runs -/

/-- What an event must lead to. -/
def Leads (s : State κ) (event : Event κ) : Prop := (step s event).Right ∧ Found (step s event) event

theorem State.Sound.block (sound : s.Sound) {block : Block} (safe : Safe s (.block block)) :
    (step s (.block block)).Sound ∧ Leads s (.block block) := by
  cases block with
  | cls classname ping confreq maxli sendq =>
    cases classname with
    | none => exact ⟨sound, sound.right, trivial⟩
    | some name =>
      obtain ⟨after, found⟩ := sound.addClass safe ping confreq maxli sendq
      exact ⟨after, after.right, found⟩
  | conf kind className exempt =>
    have after := sound.addConf kind className exempt
    exact ⟨after, after.right, trivial⟩

theorem State.Sound.blocks (sound : s.Sound) {blocks : List Block}
    (safe : Along step Safe s (blocks.map .block)) :
    ((blocks.map Event.block).foldl step s).Sound ∧ Along step Leads s (blocks.map .block) := by
  induction blocks generalizing s with
  | nil => exact ⟨sound, trivial⟩
  | cons block blocks ih =>
    obtain ⟨here, later⟩ := safe
    obtain ⟨after, leads⟩ := sound.block here
    obtain ⟨last, along⟩ := ih after later
    exact ⟨last, leads, along⟩

/-- A load settles what it has marked. -/
theorem State.Sound.load (sound : s.Sound) {blocks : List Block}
    (safe : Along step Safe s (Op.load blocks).events) :
    Along step Leads s (Op.load blocks).events ∧ ((Op.load blocks).events.foldl step s).Sound ∧
      ((Op.load blocks).events.foldl step s).Settled := by
  obtain ⟨safe, checked, -⟩ := (safe.2 |> along_append.mp)
  have cleared : (step s .clearOutOldConf).Sound := sound.clearOutOldConf
  obtain ⟨last, along⟩ := cleared.blocks safe
  obtain ⟨after, settled⟩ := last.checkClass checked
  rw [Op.events, List.foldl_cons, List.foldl_append]
  exact ⟨⟨⟨cleared.right, trivial⟩, along_append.mpr ⟨along, ⟨after.right, trivial⟩, trivial⟩⟩, after, settled⟩

theorem State.Sound.op (sound : s.Sound) (settled : s.Settled) (op : Op κ) (safe : Along step Safe s op.events) :
    Along step Leads s op.events ∧ (op.events.foldl step s).Sound ∧ (op.events.foldl step s).Settled := by
  cases op with
  | load blocks => exact sound.load safe
  | attach client aconf =>
    have after : (step s (.attach client aconf)).Sound ∧ (step s (.attach client aconf)).Settled := by
      rw [step]
      split
      · next alive => exact ⟨sound.attachConf client alive, settled.attachConf client aconf⟩
      · exact ⟨sound, settled⟩
    exact ⟨⟨⟨after.1.right, trivial⟩, trivial⟩, after⟩
  | detach client aconf =>
    have after : (step s (.detach client aconf)).Sound ∧ (step s (.detach client aconf)).Settled := by
      rw [step]
      split
      · exact sound.detachConf settled client aconf
      · exact ⟨sound, settled⟩
    exact ⟨⟨⟨after.1.right, trivial⟩, trivial⟩, after⟩

theorem State.Sound.history (sound : s.Sound) (settled : s.Settled) (ops : List (Op κ))
    (safe : Along step Safe s (history ops)) : Along step Leads s (history ops) := by
  induction ops generalizing s with
  | nil => trivial
  | cons op ops ih =>
    rw [Classes.history, List.flatMap_cons, along_append] at safe ⊢
    obtain ⟨here, after, settled⟩ := sound.op settled op safe.1
    exact ⟨here, ih after settled safe.2⟩

/-- If no class block has the name of the first class, and at the end of every load the confs point to classes that
stay, then the classes have different names, count their clients and are kept while they are used, and every class
block is found as it is. -/
theorem classes_right (ops : List (Op κ)) (safe : Along step Safe (start κ) (history ops)) :
    (∀ k, (((history ops).take k).foldl step (start κ)).Right) ∧
      ∀ k event, (history ops)[k]? = some event → Found (((history ops).take (k + 1)).foldl step (start κ)) event := by
  have leads := start_sound.history start_settled ops safe
  refine ⟨forall_take_iff.mpr ⟨start_sound.right, leads.mono fun _ _ => And.left⟩, fun k event here => ?_⟩
  have found := (leads.at_index here).2
  rw [List.take_add_one, here, List.foldl_append]
  exact found

/-- A client connects, its class is taken out of the configuration, and the client leaves. -/
def passing : List (Op Unit) :=
  [.load [.cls (some ['u']) 90 5 10 0, .conf .client (some ['u']) false], .attach () 0, .load [], .detach () 0]

theorem classes_right_passing : (((history passing).take 8).foldl step (start Unit)).Right :=
  (classes_right passing ⟨trivial, by decide, trivial, by decide, trivial, trivial, by decide, trivial, trivial⟩).1 8

/-- The configuration has a class of the name that the first class has. -/
theorem default_class_twice :
    ¬ ∀ (κ : Type) [Fintype κ] [DecidableEq κ] (ops : List (Op κ)) (k : ℕ),
      (((history ops).take k).foldl step (start κ)).Right := by
  intro all
  exact absurd (all Unit [.load [.cls (some defaultName) 90 5 10 0]] 2).names (by decide)

end

end Ircd.Conf.Classes
