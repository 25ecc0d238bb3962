import Ircd.Channel.Mask
import Ircd.Hostmask.Records

/-!
# Who owns a `ConfItem`

The records of the address table, and the local clients that `attach_conf` of `src/s_conf.c` has put on a
`ConfItem`, both keep its memory. A rehash clears the table with `clear_out_address_conf`; the client that
leaves last frees what is no longer in it. The auth blocks come from `src/ircd_parser.y`.
-/
namespace Ircd.Hostmask

/-! ### Auth blocks -/

def confFlagsNoTilde : UInt32 := 0x4
def confFlagsNeedIdentd : UInt32 := 0x8
def confFlagsExemptKline : UInt32 := 0x40
def confFlagsNoLimit : UInt32 := 0x80
def confFlagsSpoofIp : UInt32 := 0x200
def confFlagsSpoofNotice : UInt32 := 0x400
def confFlagsRedir : UInt32 := 0x800
def confFlagsExemptGline : UInt32 := 0x1000
def confFlagsRestricted : UInt32 := 0x2000
def confFlagsPersistant : UInt32 := 0x4000

/-- `auth_item`. What goes into other fields of the `ConfItem` is left out. -/
inductive AuthItem where
  | user (text : List Char)
  | passwd
  | className
  | klineExempt (yes : Bool)
  | haveIdent (yes : Bool)
  | isRestricted (yes : Bool)
  | exceedLimit (yes : Bool)
  | noTilde (yes : Bool)
  | glineExempt (yes : Bool)
  | spoof (name : List Char)
  | spoofNotice (yes : Bool)
  | redirServ
  | redirPort
  | persistant (yes : Bool)

/-- A `ConfItem` of an auth block that is being read. -/
structure AuthConf where
  user : Option (List Char)
  host : Option (List Char)

/-- The block that is being read: `yy_acount`, the list from `yy_achead` up to `yy_aconf`, which is its
last, and the flags of `yy_achead`. -/
structure AuthBlock where
  acount : ℕ
  before : List AuthConf
  aconf : AuthConf
  flags : UInt32

/-- The block after `auth {`. A block that was never closed leaves its `yy_acount` to the next. -/
def AuthBlock.start (acount : ℕ) : AuthBlock := ⟨acount, [], ⟨none, none⟩, 0⟩

/-- `flags |= flag` or `flags &= ~flag`. -/
def AuthBlock.setFlag (block : AuthBlock) (flag : UInt32) (yes : Bool) : AuthBlock :=
  { block with flags := if yes then block.flags ||| flag else block.flags &&& ~~~flag }

/-- `auth_user`. The first line does not make a new `ConfItem`. -/
def AuthBlock.setUser (block : AuthBlock) (text : List Char) : AuthBlock :=
  { block with
    acount := block.acount + 1
    before := if block.acount = 0 then block.before else block.before ++ [block.aconf]
    aconf :=
      if '@' ∈ text then ⟨some (Chan.cutAt '@' text).1, some (Chan.cutAt '@' text).2⟩
      else ⟨some ['*'], some text⟩ }

def AuthBlock.item (block : AuthBlock) : AuthItem → AuthBlock
  | .user text => block.setUser text
  | .passwd => block
  | .className => block
  | .klineExempt yes => block.setFlag confFlagsExemptKline yes
  | .haveIdent yes => block.setFlag confFlagsNeedIdentd yes
  | .isRestricted yes => block.setFlag confFlagsRestricted yes
  | .exceedLimit yes => block.setFlag confFlagsNoLimit yes
  | .noTilde yes => block.setFlag confFlagsNoTilde yes
  | .glineExempt yes => block.setFlag confFlagsExemptGline yes
  | .spoof name => if name.length < Chan.hostLen then block.setFlag confFlagsSpoofIp true else block
  -- the two answers are exchanged in the grammar
  | .spoofNotice yes => block.setFlag confFlagsSpoofNotice !yes
  | .redirServ => block.setFlag confFlagsRedir true
  | .redirPort => block.setFlag confFlagsRedir true
  | .persistant yes => block.setFlag confFlagsPersistant yes

/-! ### The table and the clients -/

/-- The address table with its `ConfItem`s. `made` is the number of them so far, and `hosts` their `host`
fields. `temporaryKlines` is the list `temporary_klines`. `attached` has an entry for each node of a
`localClient->confs`: the client and the `ConfItem`. `frees` counts the calls of `free_conf`, which the
source does not. -/
structure Access where
  table : Table
  made : ℕ
  hosts : ℕ → List Char
  temporaryKlines : List ℕ
  attached : List (ℕ × ℕ)
  frees : ℕ → ℕ

def Access.start : Access where
  table := initHostHash fun _ => ⟨0, 0, 0⟩
  made := 0
  hosts := fun _ => []
  temporaryKlines := []
  attached := []
  frees := fun _ => 0

/-- `free_conf`. -/
def Access.freeConf (s : Access) (aconf : ℕ) : Access :=
  { s with
    table := { s.table with freed := Function.update s.table.freed aconf true }
    frees := Function.update s.frees aconf (s.frees aconf + 1) }

def Access.setConf (s : Access) (aconf : ℕ) (conf : ConfItem) : Access :=
  { s with table := { s.table with confs := Function.update s.table.confs aconf conf } }

/-- `make_conf`, and then `add_conf_by_address`. -/
def Access.enter (s : Access) (host : List Char) (type : UInt32) (user : Option (List Char))
    (flags : UInt32) : Access :=
  { s.setConf s.made ⟨type, flags, 0⟩ with
    table := addConfByAddress (s.setConf s.made ⟨type, flags, 0⟩).table (some host) type user s.made
    made := s.made + 1
    hosts := Function.update s.hosts s.made host }

def confClient : UInt32 := 0x2
def confKill : UInt32 := 0x40
def confDline : UInt32 := 0x20000
def confExemptDline : UInt32 := 0x100000

/-- The end of `auth_entry`, for one `ConfItem`. Without a host it stays out of the table. -/
def Access.enterAuth (flags : UInt32) (s : Access) (conf : AuthConf) : Access :=
  match conf.host with
  | none => s
  | some host =>
    let user := match conf.user with
      | none => ['*']
      | some user => Chan.collapse user
    s.enter (Chan.collapse host) confClient (some user) flags

/-- `auth_entry`. Every `ConfItem` gets the flags of the first. -/
def authEntry (s : Access) (acount : ℕ) (items : List AuthItem) : Access :=
  let block := items.foldl AuthBlock.item (AuthBlock.start acount)
  (block.before ++ [block.aconf]).foldl (Access.enterAuth block.flags) s

/-- `add_temp_kline`. -/
def addTempKline (s : Access) (host : List Char) (user : Option (List Char)) : Access :=
  { s.enter host confKill user banFlagsTemporary with temporaryKlines := s.made :: s.temporaryKlines }

/-- `delete_one_address_conf`, with the call of `free_conf` counted. -/
def Access.deleteOne (s : Access) (address : List Char) (aconf : ℕ) : Access :=
  let s' := { s with table := deleteOneAddressConf s.table address aconf }
  if (s.table.atable (bucketOf (maskOf address))).any (·.aconf = aconf) ∧
      (s.table.confs aconf).clients = 0 then
    { s' with frees := Function.update s.frees aconf (s.frees aconf + 1) }
  else s'

/-- The end of a temporary K-line, in `expire_tklines` and `remove_tkline_match`. -/
def dropTempKline (s : Access) (aconf : ℕ) : Access :=
  if aconf ∈ s.temporaryKlines then
    { s.deleteOne (s.hosts aconf) aconf with temporaryKlines := s.temporaryKlines.erase aconf }
  else s

/-! ### Attaching -/

/-- `attach_conf`; `full` says that the class of the `ConfItem` takes no more clients. -/
def attachConf (s : Access) (client aconf : ℕ) (full : Bool) : Access :=
  let conf := s.table.confs aconf
  if (client, aconf) ∈ s.attached then s
  else if conf.status &&& confIllegal != 0 then s
  else if full then s
  else { s.setConf aconf { conf with clients := conf.clients + 1 } with
    attached := (client, aconf) :: s.attached }

/-- `detach_conf`. -/
def detachConf (s : Access) (client aconf : ℕ) : Access :=
  if (client, aconf) ∈ s.attached then
    let conf := s.table.confs aconf
    let s' := s.setConf aconf { conf with clients := conf.clients - 1 }
    let s' := if conf.clients - 1 = 0 ∧ conf.status &&& confIllegal != 0 then s'.freeConf aconf else s'
    { s' with attached := s.attached.erase (client, aconf) }
  else s

/-! ### Clearing the table -/

/-- One turn of the loop in `clear_out_address_conf`, at a record that goes. -/
def Access.dropRecord (s : Access) (aconf : ℕ) : Access :=
  let conf := s.table.confs aconf
  let s' := s.setConf aconf { conf with status := conf.status ||| confIllegal }
  if conf.clients = 0 then s'.freeConf aconf else s'

/-- The loop over one bucket. The records that stay are linked together again. -/
def Access.clearBucket (s : Access) : List AddressRec → Access × List AddressRec
  | [] => (s, [])
  | arec :: bucket =>
    if s.table.keeps arec then
      let (s', kept) := s.clearBucket bucket
      (s', arec :: kept)
    else (s.dropRecord arec.aconf).clearBucket bucket

/-- The loop over the buckets `i`, `i + 1` and so on. -/
def Access.clearFrom (s : Access) (i : ℕ) : ℕ → Access
  | 0 => s
  | n + 1 =>
    let (s', kept) := s.clearBucket (s.table.atable i)
    Access.clearFrom
      { s' with table := { s'.table with atable := Function.update s'.table.atable i kept } } (i + 1) n

/-- `clear_out_address_conf`. -/
def Access.clearOutAddressConf (s : Access) : Access := s.clearFrom 0 atableSize

/-! ### Runs -/

/-- What happens to the table. -/
inductive AccessEvent where
  | auth (acount : ℕ) (items : List AuthItem)
  | kline (host user : List Char)
  | dline (host : List Char)
  | exempt (host : List Char)
  | tkline (host : List Char) (user : Option (List Char))
  | dropTkline (aconf : ℕ)
  | attach (client : ℕ) (q : Query) (full : Bool)
  | detach (client aconf : ℕ)
  | clear

def Access.step (wildMatch : List Char → List Char → Bool) (s : Access) : AccessEvent → Access
  | .auth acount items => authEntry s acount items
  | .kline host user => s.enter host confKill (some user) 0
  | .dline host => s.enter host confDline none 0
  | .exempt host => s.enter host confExemptDline none 0
  | .tkline host user => addTempKline s host user
  | .dropTkline aconf => dropTempKline s aconf
  -- a client is put on what the table has for it
  | .attach client q full =>
    match findConfByAddress wildMatch s.table q with
    | some aconf => attachConf s client aconf full
    | none => s
  | .detach client aconf => detachConf s client aconf
  | .clear => s.clearOutAddressConf

def Access.run (wildMatch : List Char → List Char → Bool) (s : Access) (events : List AccessEvent) :
    Access :=
  events.foldl (Access.step wildMatch) s

end Ircd.Hostmask
