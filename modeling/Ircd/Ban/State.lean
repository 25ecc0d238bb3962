import Ircd.Hostmask.Records

/-!
# Timed bans

Temporary K-lines and G-lines, in `modules/m_kline.c`, `modules/m_gline.c`, `modules/m_unkline.c`,
`src/s_conf.c` and `src/s_gline.c`. A temporary K-line is in the list `temporary_klines` and in the
address table. The memory of a `ConfItem` is not used again for another, and `match` is a parameter.
-/
namespace Ircd.Ban

open Hostmask

/-- A `ConfItem` of a timed ban. -/
structure Conf where
  aconf : ℕ
  user : List Char
  host : List Char
  hold : ℤ
deriving DecidableEq

/-- What makes an entry of the address table. -/
structure Entry where
  address : Option (List Char)
  type : UInt32
  user : Option (List Char)
  flags : UInt32

/-- The files that a rehash reads: what they say of the general block, and the entries in them. -/
structure Files where
  nonRedundantKlines : Bool
  glineTime : ℤ
  entries : List Entry

/-- A timed ban that has been set, with the number of rehashes and of expiry events before. -/
structure TimedBan extends Conf where
  gline : Bool
  rehashes : ℕ
  expiries : ℕ
deriving DecidableEq

/-- The server. `made` is the number of `ConfItem`s in the table so far. The last four fields are not in
the source, and nothing looks at them: the bans set, those removed by UNKLINE or UNGLINE, the number of
rehashes, and the times at which `expire_tklines` has run. -/
structure State where
  nonRedundantKlines : Bool
  glineTime : ℤ
  table : Table
  made : ℕ
  temporaryKlines : List Conf
  glines : List Conf
  timedBans : List TimedBan
  removed : List ℕ
  rehashes : ℕ
  expiries : List ℤ

/-- The server before it reads a file, with `set_default_conf`. -/
def start : State where
  nonRedundantKlines := true
  glineTime := 12 * 3600
  table := initHostHash fun _ => ⟨0, 0, 0⟩
  made := 0
  temporaryKlines := []
  glines := []
  timedBans := []
  removed := []
  rehashes := 0
  expiries := []

/-- `CONF_KILL`. -/
def confKill : UInt32 := 0x40

/-! ### Adding -/

/-- `make_conf`, and then `add_conf_by_address`. -/
def State.enter (s : State) (e : Entry) : State :=
  { s with
    table := addConfByAddress
      { s.table with
        confs := Function.update s.table.confs s.made ⟨e.type, e.flags, 0⟩
        freed := Function.update s.table.freed s.made false }
      e.address e.type e.user s.made
    made := s.made + 1 }

/-- The ban with the next `ConfItem`. -/
def State.nextBan (s : State) (user host : List Char) (hold : ℤ) (gline : Bool) : TimedBan where
  aconf := s.made
  user := user
  host := host
  hold := hold
  gline := gline
  rehashes := s.rehashes
  expiries := s.expiries.length

/-- `apply_kline`, less the line in the file. -/
def applyKline (s : State) (user host : List Char) : State :=
  s.enter ⟨some host, confKill, some user, 0⟩

/-- `apply_tkline` with `add_temp_kline`. -/
def applyTkline (s : State) (now : ℤ) (user host : List Char) (tklineTime : ℤ) : State :=
  let ban := s.nextBan user host (now + tklineTime) false
  { s.enter ⟨some host, confKill, some user, banFlagsTemporary⟩ with
    temporaryKlines := ban.toConf :: s.temporaryKlines
    timedBans := ban :: s.timedBans }

/-- `already_placed_kline`. -/
def alreadyPlacedKline (wildMatch : List Char → List Char → Bool) (s : State) (user host : List Char) :
    Bool :=
  s.nonRedundantKlines &&
    (findConfByAddress wildMatch s.table
      (match parseNetmask host with
        | .ipv4 addr _ => ⟨some host, some addr, confKill, afInet, some user⟩
        | .host => ⟨some host, none, confKill, 0, some user⟩)).isSome

/-- The end of `mo_kline` and of `ms_kline`. A time of zero is for good. -/
def kline (wildMatch : List Char → List Char → Bool) (s : State) (now : ℤ) (user host : List Char)
    (tklineTime : ℤ) : State :=
  if alreadyPlacedKline wildMatch s user host then s
  else if tklineTime ≠ 0 then applyTkline s now user host tklineTime
  else applyKline s user host

/-- `set_local_gline`. The ban goes into the table, but into no list, and it does not get the flag of a
temporary one. -/
def setLocalGline (s : State) (now : ℤ) (user host : List Char) : State :=
  { s.enter ⟨some host, confKill, some user, 0⟩ with
    timedBans := s.nextBan user host (now + s.glineTime) true :: s.timedBans }

/-! ### Expiry -/

/-- `delete_one_address_conf` for each. -/
def deleteAll (t : Table) (due : List Conf) : Table :=
  due.foldl (fun t conf => deleteOneAddressConf t conf.host conf.aconf) t

/-- `expire_tklines`. -/
def expireTklines (s : State) (now : ℤ) : State :=
  { s with
    table := deleteAll s.table (s.temporaryKlines.filter fun conf => conf.hold ≤ now)
    temporaryKlines := s.temporaryKlines.filter fun conf => ¬conf.hold ≤ now
    expiries := s.expiries ++ [now] }

/-- `free_conf` for each. -/
def freeAll (t : Table) (due : List Conf) : Table :=
  { t with freed := due.foldl (fun freed conf => Function.update freed conf.aconf true) t.freed }

/-- `expire_glines`. The address table is left alone. -/
def expireGlines (s : State) (now : ℤ) : State :=
  { s with
    table := freeAll s.table (s.glines.filter fun conf => conf.hold ≤ now)
    glines := s.glines.filter fun conf => ¬conf.hold ≤ now }

/-! ### Rehash -/

/-- `read_conf_files`, when the files can be opened. -/
def rehash (s : State) (files : Files) : State :=
  files.entries.foldl State.enter
    { s with
      nonRedundantKlines := files.nonRedundantKlines
      glineTime := files.glineTime
      table := clearOutAddressConf s.table
      rehashes := s.rehashes + 1 }

/-! ### Removal by command -/

/-- The test in `remove_tkline_match`. -/
def tklineMatches (host user : List Char) (conf : Conf) : Bool :=
  match parseNetmask host, parseNetmask conf.host with
  | .host, .host => IrcEq user conf.user ∧ IrcEq conf.host host
  | .ipv4 addr bits, .ipv4 caddr cbits =>
    IrcEq user conf.user ∧ bits = cbits ∧ matchIpv4 addr caddr bits
  | _, _ => false

/-- `remove_tkline_match`. -/
def removeTklineMatch (s : State) (host user : List Char) : Option State :=
  (s.temporaryKlines.find? (tklineMatches host user)).map fun conf =>
    { s with
      table := deleteAll s.table [conf]
      temporaryKlines := s.temporaryKlines.eraseP (tklineMatches host user)
      removed := conf.aconf :: s.removed }

/-- `mo_unkline`. `files` is what its rehash reads, unless a file cannot be opened. -/
def moUnkline (s : State) (user host : List Char) (files : Option Files) : State :=
  match removeTklineMatch s host user with
  | some s' => s'
  | none => (files.map (rehash s)).getD s

def glineMatches (user host : List Char) (conf : Conf) : Bool :=
  IrcEq conf.host host ∧ IrcEq conf.user user

/-- `remove_gline_match`. -/
def removeGlineMatch (s : State) (user host : List Char) : Option State :=
  (s.glines.find? (glineMatches user host)).map fun conf =>
    { s with
      table := freeAll s.table [conf]
      glines := s.glines.eraseP (glineMatches user host)
      removed := conf.aconf :: s.removed }

/-- `mo_ungline`. -/
def moUngline (s : State) (user host : List Char) : State :=
  (removeGlineMatch s user host).getD s

/-! ### Runs -/

/-- What happens to the bans. A G-line event is a vote that is complete. -/
inductive Event where
  | kline (user host : List Char) (tklineTime : ℤ)
  | gline (user host : List Char)
  | unkline (user host : List Char) (files : Option Files)
  | ungline (user host : List Char)
  | rehash (files : Files)
  | cleanupTklines
  | cleanupGlines

def step (wildMatch : List Char → List Char → Bool) (s : State) (now : ℤ) : Event → State
  | .kline user host tklineTime => kline wildMatch s now user host tklineTime
  -- a complete vote is followed by `cleanup_glines`
  | .gline user host => expireGlines (setLocalGline s now user host) now
  | .unkline user host files => moUnkline s user host files
  | .ungline user host => moUngline s user host
  | .rehash files => rehash s files
  | .cleanupTklines => expireTklines s now
  | .cleanupGlines => expireGlines s now

/-- Each event comes with the time. -/
def run (wildMatch : List Char → List Char → Bool) (events : List (ℤ × Event)) : State :=
  events.foldl (fun s event => step wildMatch s event.1 event.2) start

end Ircd.Ban
