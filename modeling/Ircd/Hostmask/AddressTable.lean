import Ircd.Hostmask.Netmask
import Mathlib.Logic.Function.Basic

/-!
# The address table

The hash table of `src/hostmask.c` in which the server keeps its access rules and bans.
`match` (`wildMatch`) is a parameter here. The strings of a record are pointers into its `ConfItem`;
here they are values, so a record that outlives its `ConfItem` keeps them.
-/
namespace Ircd.Hostmask

/-- What `masktype` and `Mask` of a record say together. -/
inductive Mask where
  | ipv4 (addr : UInt32) (bits : ℤ)
  | host (hostname : List Char)
deriving DecidableEq

/-- `struct AddressRec`, less the chain pointer. `aconf` is the address of a `ConfItem`. -/
structure AddressRec where
  mask : Mask
  type : UInt32
  precedence : UInt64
  username : Option (List Char)
  aconf : ℕ
deriving DecidableEq

/-- The fields of a `ConfItem` that the table looks at. -/
structure ConfItem where
  status : UInt32
  flags : UInt32
  clients : ℤ

/-- `atable`, the counter of `add_conf_by_address`, and the memory of the `ConfItem`s. -/
structure Table where
  atable : ℕ → List AddressRec
  precValue : UInt64
  confs : ℕ → ConfItem
  freed : ℕ → Bool

/-- The table after `init_host_hash`. -/
def initHostHash (confs : ℕ → ConfItem) : Table := ⟨fun _ => [], 0xFFFFFFFF, confs, fun _ => false⟩

def confIllegal : UInt32 := 0x80000000

def banFlagsTemporary : UInt32 := 1

/-! ### Changing the table -/

/-- The mask of a record, and of a text to be looked for. -/
def maskOf (address : List Char) : Mask :=
  match parseNetmask address with
  | .ipv4 addr bits => .ipv4 addr bits
  | .host => .host address

/-- The bucket of a mask: the prefix is rounded down to whole octets. -/
def bucketOf : Mask → ℕ
  | .ipv4 addr bits => hashIpv4 addr (bits - bits.tmod 8)
  | .host hostname => getMaskHash hostname

/-- What stands for a missing address. -/
def noMatch : List Char := ['/', 'N', 'O', 'M', 'A', 'T', 'C', 'H', '!', '/']

/-- `add_conf_by_address`. -/
def addConfByAddress (t : Table) (address : Option (List Char)) (type : UInt32)
    (username : Option (List Char)) (aconf : ℕ) : Table :=
  let mask := maskOf (address.getD noMatch)
  let arec := ⟨mask, type, t.precValue, username, aconf⟩
  { t with
    atable := Function.update t.atable (bucketOf mask) (arec :: t.atable (bucketOf mask))
    precValue := t.precValue - 1 }

/-- `delete_one_address_conf`. The flag goes into `flags`, not into `status`. -/
def deleteOneAddressConf (t : Table) (address : List Char) (aconf : ℕ) : Table :=
  let hv := bucketOf (maskOf address)
  if (t.atable hv).any (·.aconf = aconf) then
    let conf := t.confs aconf
    { t with
      atable := Function.update t.atable hv ((t.atable hv).eraseP (·.aconf = aconf))
      confs := Function.update t.confs aconf { conf with flags := conf.flags ||| confIllegal }
      freed := if conf.clients = 0 then Function.update t.freed aconf true else t.freed }
  else t

/-- A record of `clear_out_address_conf` that stays. -/
def Table.keeps (t : Table) (arec : AddressRec) : Bool :=
  (t.confs arec.aconf).flags &&& banFlagsTemporary != 0

/-- `clear_out_address_conf`. -/
def clearOutAddressConf (t : Table) : Table :=
  let dropped := fun aconf => (List.range atableSize).any fun i =>
    (t.atable i).any fun arec => arec.aconf = aconf && !t.keeps arec
  { t with
    atable := fun i => (t.atable i).filter t.keeps
    confs := fun aconf =>
      if dropped aconf then { t.confs aconf with status := (t.confs aconf).status ||| confIllegal }
      else t.confs aconf
    freed := fun aconf => t.freed aconf || (dropped aconf && (t.confs aconf).clients = 0) }

/-! ### Searching the table -/

/-- `AF_INET`. -/
def afInet : ℕ := 2

/-- The arguments of `find_conf_by_address`. -/
structure Query where
  name : Option (List Char)
  addr : Option UInt32
  type : UInt32
  fam : ℕ
  username : Option (List Char)

section Search

-- `match` of `src/match.c`
variable (wildMatch : List Char → List Char → Bool)

/-- A record of the type asked for, whose user name matches unless bit 0 of the type says
that user names do not count. A NULL mask matches nothing. -/
def acceptsUser (q : Query) (arec : AddressRec) : Bool :=
  arec.type == q.type &&& ~~~1 &&
    (q.type &&& 1 != 0 || arec.username.any (wildMatch · (q.username.getD [])))

def acceptsAddr (q : Query) (addr : UInt32) (arec : AddressRec) : Bool :=
  acceptsUser wildMatch q arec &&
    match arec.mask with
    | .ipv4 mask bits => matchIpv4 addr mask bits
    | .host _ => false

def acceptsName (q : Query) (name : List Char) (arec : AddressRec) : Bool :=
  acceptsUser wildMatch q arec &&
    match arec.mask with
    | .ipv4 _ _ => false
    | .host hostname => wildMatch hostname name

end Search

/-- The variables `hprecv` and `hprec` of the search. -/
structure Found where
  hprecv : UInt64
  hprec : Option ℕ
deriving DecidableEq

/-- The loop over one bucket. -/
def searchBucket (accepts : AddressRec → Bool) (found : Found) (bucket : List AddressRec) : Found :=
  bucket.foldl (fun found arec =>
    if accepts arec && decide (arec.precedence > found.hprecv) then
      ⟨arec.precedence, some arec.aconf⟩
    else found) found

/-- The texts after each dot. -/
def afterDots : List Char → List (List Char)
  | [] => []
  | c :: text => if c = '.' then text :: afterDots text else afterDots text

/-- The buckets looked through for an address, with what is accepted there, then those for a
name. -/
def probes (wildMatch : List Char → List Char → Bool) (q : Query) :
    List (ℕ × (AddressRec → Bool)) :=
  (match q.addr with
    | some addr =>
      if q.fam = afInet then
        [32, 24, 16, 8, 0].map fun b => (hashIpv4 addr b, acceptsAddr wildMatch q addr)
      else []
    | none => []) ++
  match q.name with
    | some name =>
      (name :: afterDots name).map (fun p => (hashText p, acceptsName wildMatch q name)) ++
        [(0, acceptsName wildMatch q name)]
    | none => []

/-- `find_conf_by_address`. -/
def findConfByAddress (wildMatch : List Char → List Char → Bool) (t : Table) (q : Query) : Option ℕ :=
  ((probes wildMatch q).foldl (fun found probe => searchBucket probe.2 found (t.atable probe.1))
    ⟨0, none⟩).hprec

/-! ### Histories -/

/-- What happens to the table. Other code may change a `ConfItem` at any time. -/
inductive Op where
  | add (address : Option (List Char)) (type : UInt32) (username : Option (List Char)) (aconf : ℕ)
  | delete (address : List Char) (aconf : ℕ)
  | clear
  | touch (aconf : ℕ) (conf : ConfItem)

def Table.step (t : Table) : Op → Table
  | .add address type username aconf => addConfByAddress t address type username aconf
  | .delete address aconf => deleteOneAddressConf t address aconf
  | .clear => clearOutAddressConf t
  | .touch aconf conf => { t with confs := Function.update t.confs aconf conf }

def Table.run (confs : ℕ → ConfItem) (ops : List Op) : Table :=
  ops.foldl Table.step (initHostHash confs)

end Ircd.Hostmask
