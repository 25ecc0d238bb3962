import Ircd.Channel.Mask
import Ircd.Text
import Mathlib.Data.Finset.Insert

/-!
# The handshake of a crypt link

The messages of one unregistered connection: `CAPAB`, `PASS`, `SERVER`, and the two of `modules/m_cryptlink.c`. RSA is
ideal: a sealed text says under which public key it was sealed, and only the private half of that key opens it. The
base 64 around it is left out, and so are the server's description, its hop count and the notices to operators,
which nothing here reads.
-/
namespace Ircd.CryptLink

open Ircd.Chan (ircMatch)

/-! ### Keys -/

/-- A pair of RSA keys. -/
structure RsaKey where
  number : ℕ
  deriving DecidableEq, Repr

/-- A text under `RSA_public_encrypt`. -/
structure Sealed where
  rsaKey : RsaKey
  text : List UInt8
  deriving DecidableEq, Repr

/-- `CIPHERKEYLEN`. -/
def cipherKeyLen : ℕ := 64

/-- What `in_key` and `out_key` hold. -/
abbrev Key := { text : List UInt8 // text.length = cipherKeyLen }

/-- The key at the front of a text that is long enough. -/
def keyOf (text : List UInt8) (long : cipherKeyLen ≤ text.length) : Key :=
  ⟨text.take cipherKeyLen, by rw [List.length_take, Nat.min_eq_left long]⟩

/-! ### Ciphers and capabilities -/

/-- `struct EncCapability`. Of `cap` there is the number of its bit. -/
structure EncCapability where
  name : List Char
  cap : ℕ
  keylen : ℕ
  deriving DecidableEq, Repr

/-- `CipherTable`. -/
def cipherTable : List EncCapability :=
  [ ⟨"BF/256".toList, 1, 32⟩, ⟨"BF/128".toList, 0, 16⟩, ⟨"CAST/128".toList, 2, 16⟩, ⟨"IDEA/128".toList, 5, 16⟩,
    ⟨"RC5.16/128".toList, 8, 16⟩, ⟨"RC5.12/128".toList, 7, 16⟩, ⟨"RC5.8/128".toList, 6, 16⟩,
    ⟨"3DES/168".toList, 4, 24⟩, ⟨"DES/56".toList, 3, 8⟩ ]

/-- `memcmp` stays inside the key. -/
theorem keylen_le : ∀ ecap ∈ cipherTable, ecap.keylen ≤ cipherKeyLen := by decide

/-- The bits of `caps`. -/
inductive Cap
  | capab | qs | ex | chw | ll | ie | eob | kln | gln | knock | hops | hub | aops | uid | zip | tburst | enc
  deriving DecidableEq, Repr

/-- `captab`. -/
def captab : List (List Char × Cap) :=
  [ ("QS".toList, .qs), ("EX".toList, .ex), ("CHW".toList, .chw), ("LL".toList, .ll), ("IE".toList, .ie),
    ("EOB".toList, .eob), ("KLN".toList, .kln), ("GLN".toList, .gln), ("KNOCK".toList, .knock),
    ("HOPS".toList, .hops), ("HUB".toList, .hub), ("AOPS".toList, .aops), ("UID".toList, .uid),
    ("ZIP".toList, .zip), ("TBURST".toList, .tburst) ]

/-! ### The configuration -/

/-- The part of `status` that says what an item is. -/
inductive ConfStatus
  | server | hub | leaf | other
  deriving DecidableEq, Repr

/-- `struct ConfItem`. -/
structure ConfItem where
  status : ConfStatus
  illegal : Bool
  name : List Char
  host : List Char
  passwd : List Char
  encrypted : Bool
  cryptLink : Bool
  lazyLink : Bool
  compressed : Bool
  rsaPublicKey : Option RsaKey
  cipherPreference : Option EncCapability
  deriving DecidableEq

/-- What the handlers read of the server. `crypt` is that of the C library, and `fits` says whether
`RSA_public_encrypt` has room for so many bytes. -/
structure Server where
  configItemList : List ConfItem
  hub : Bool
  rsaPrivateKey : Option RsaKey
  defaultCipherPreference : EncCapability
  capEncMask : Finset ℕ
  crypt : List Char → List Char → List Char
  fits : RsaKey → ℕ → Bool

/-- What the server finds while it handles one message: whether a server of a name is linked, what `nextFreeMask` and
`get_randomness` give, and whether a line that it sends finds the socket dead. -/
structure Moment where
  serverExists : List Char → Bool
  freeMask : ℕ
  randomness : Option Key
  dead : Bool

/-! ### The connection -/

/-- Where the connection is. `estab` is the end of the handshake: `server_estab` was called, which registers the
server or ends the connection. -/
inductive Phase
  | unregistered | exited | estab
  deriving DecidableEq, Repr

/-- What the server sent. A line without a key is `plain`. -/
inductive Line
  | plain
  | serv (key : Sealed)
  | auth (cipher : List Char) (key : Sealed)
  deriving DecidableEq, Repr

/-- `struct Client` and `struct LocalUser`. -/
structure Conn where
  phase : Phase
  host : List Char
  sockhost : List Char
  name : List Char
  passwd : List Char
  doesTs : Bool
  caps : Finset Cap
  encCaps : Finset ℕ
  serverMask : ℕ
  confs : List ConfItem
  waitAuth : Bool
  inKey : Key
  outKey : Key
  inCipher : Option EncCapability
  outCipher : Option EncCapability
  cryptIn : Bool
  cryptOut : Bool
  sent : List Line

namespace Conn

variable (s : Conn)

/-- `exit_client`. -/
def exit : Conn := { s with phase := .exited }

/-- `sendto_one`. -/
def send (line : Line) : Conn :=
  match s.phase with
  | .exited => s
  | _ => { s with sent := s.sent ++ [line] }

/-- The block is for the host that the connection comes from. -/
def hostMatches (aconf : ConfItem) : Bool := ircMatch aconf.host s.host || ircMatch aconf.host s.sockhost

/-- `attach_conf` of a block for servers. -/
def attachConf (aconf : ConfItem) : Conn :=
  if aconf ∈ s.confs ∨ aconf.illegal then s else { s with confs := aconf :: s.confs }

end Conn

/-- `find_conf_name`, for `CONF_SERVER`. -/
def findConfName (confs : List ConfItem) (name : List Char) : Option ConfItem :=
  confs.find? fun aconf => aconf.status = .server ∧ (IrcEq aconf.name name ∨ ircMatch aconf.name name)

/-- `HOSTLEN`. -/
def hostlen : ℕ := 63

/-- `PASSWDLEN`. -/
def passwdlen : ℕ := 20

/-- `IsServChar`. -/
def isServChar (c : Char) : Bool := ('A' ≤ c ∧ c ≤ '}') ∨ c.isDigit ∨ c = '-' ∨ c = '.' ∨ c = '*'

/-- `bogus_host`. -/
def bogusHost (host : List Char) : Bool := !host.all isServChar || !host.contains '.'

section Handlers

variable (srv : Server) (now : Moment) (s : Conn)

/-! ### `check_server` -/

/-- The block that matched the name and the host is one that the connection may use. -/
def suits (cryptlink : Bool) (aconf : ConfItem) : Bool :=
  if cryptlink && aconf.cryptLink then aconf.rsaPublicKey.isSome
  else if !(cryptlink || aconf.cryptLink) then
    if aconf.encrypted then aconf.passwd == srv.crypt s.passwd aconf.passwd else aconf.passwd == s.passwd
  else false

/-- One turn of the loop of `check_server`: the error, and the last block that suits. -/
def checkTurn (cryptlink : Bool) (name : List Char) (found : ℤ × Option ConfItem) (aconf : ConfItem) :
    ℤ × Option ConfItem :=
  if aconf.status ≠ .server then found
  else if !ircMatch name aconf.name then found
  else if !s.hostMatches aconf then (-3, found.2)
  else (-2, if suits srv s cryptlink aconf then some aconf else found.2)

/-- The hub and leaf blocks of a name. -/
def hubLeafConfs (name : List Char) : List ConfItem :=
  srv.configItemList.filter fun aconf =>
    (aconf.status = .hub ∨ aconf.status = .leaf) ∧ ircMatch name aconf.name

/-- What the end of `check_server` does for the block that it found: the block is attached, the hub and leaf
blocks of the name are, and capabilities that the block does not allow are cleared. -/
def useConf (name : List Char) (aconf : ConfItem) : Conn :=
  let attached := (hubLeafConfs srv name).foldl Conn.attachConf (s.attachConf aconf)
  { attached with
    caps := attached.caps.filter fun cap =>
      (cap = .ll → aconf.lazyLink) ∧ (cap = .zip → aconf.compressed) ∧ (cap = .enc → aconf.cryptLink) }

/-- `check_server`. -/
def checkServer (cryptlink : Bool) (name : List Char) : Except ℤ Conn :=
  match srv.configItemList.foldl (checkTurn srv s cryptlink name) (-1, none) with
  | (error, none) => .error error
  | (_, some aconf) => .ok (useConf srv s name aconf)

/-- What becomes of a LazyLink, in `mr_server` and in `cryptlink_serv`. -/
def negotiateLazyLink : Conn :=
  if .ll ∈ s.caps then
    if srv.hub then
      if .hub ∈ s.caps then { s with caps := s.caps.erase .ll }
      else { s with serverMask := now.freeMask, caps := if now.freeMask = 0 then s.caps.erase .ll else s.caps }
    else if .hub ∈ s.caps then s
    else { s with caps := s.caps.erase .ll }
  else s

/-- `server_estab`, up to where the connection is no longer unregistered. -/
def serverEstab : Conn :=
  match findConfName s.confs s.name with
  | none => s.exit
  | some _ => { s with phase := .estab, passwd := [] }

/-! ### `CAPAB`, `PASS` and `SERVER` -/

/-- The cipher of a name that may be used here. -/
def encCipher (name : List Char) : Option ℕ :=
  (cipherTable.find? fun ecap => IrcEq ecap.name name ∧ ecap.cap ∈ srv.capEncMask).map EncCapability.cap

/-- The loops of `mr_capab`. `cipher` is not cleared between the words. -/
def capabWords : List (List Char) → Option ℕ → Conn → Conn
  | [], _, s => s
  | word :: words, cipher, s =>
    if word.take 4 = "ENC:".toList then
      match (encCipher srv (word.drop 4)).or cipher with
      | none => s.exit
      | some cap => capabWords words (some cap)
          { s with caps := insert .enc s.caps, encCaps := insert cap s.encCaps }
    else
      match captab.find? fun cap => IrcEq cap.1 word with
      | none => capabWords words cipher s
      | some cap => capabWords words cipher { s with caps := insert cap.2 s.caps }

/-- `mr_capab`, with the words of all its parameters. -/
def mrCapab (words : List (List Char)) : Conn :=
  if s.caps.Nonempty then s.exit else capabWords srv words none { s with caps := {.capab} }

/-- `mr_pass`. -/
def mrPass (parv : List (List Char)) : Conn :=
  match parv with
  | [] | [] :: _ => s
  | password :: rest =>
    { s with
      passwd := password.take passwdlen
      doesTs := s.doesTs || (rest.head?.any fun word => IrcEq word "TS".toList) }

/-- `mr_server`. -/
def mrServer (parv : List (List Char)) : Conn :=
  match parv with
  | name :: _ :: _ :: _ =>
    if !s.doesTs then s.exit
    else if bogusHost name then s.exit
    else match checkServer srv s false name with
      | .error _ => s.exit
      | .ok s =>
        if now.serverExists name then s.exit
        else serverEstab { negotiateLazyLink srv now s with name := name.take hostlen }
  | _ => s.exit

/-! ### `CRYPTLINK` -/

/-- `RSA_private_decrypt`. -/
def privateDecrypt (sealed : Sealed) : Option (List UInt8) :=
  if srv.rsaPrivateKey = some sealed.rsaKey then some sealed.text else none

/-- `RSA_public_encrypt`. Without a key there is nothing that it gives. -/
def publicEncrypt (rsaKey : Option RsaKey) (text : List UInt8) : Option Sealed :=
  match rsaKey with
  | none => none
  | some rsaKey => if srv.fits rsaKey text.length then some ⟨rsaKey, text⟩ else none

/-- `check_cipher`. -/
def checkCipher (aconf : ConfItem) : Option EncCapability :=
  let epref := aconf.cipherPreference.getD srv.defaultCipherPreference
  if epref.cap ∈ s.encCaps then some epref else none

/-- `cryptlink_init`. -/
def cryptlinkInit (aconf : ConfItem) : Conn :=
  match srv.rsaPrivateKey, aconf.rsaPublicKey, now.randomness with
  | some _, some rsaKey, some randkey =>
    match publicEncrypt srv rsaKey randkey.1 with
    | none => { s with inKey := randkey }.exit
    | some sealed =>
      let greeted := ({ s with inKey := randkey }.send .plain).send (.serv sealed)
      let waiting := { greeted with waitAuth := true }
      if now.dead then waiting.exit else waiting
  | _, _, _ => s.exit

/-- The parameters of `CRYPTLINK SERV`. A `key` that is not base 64 is `none`. -/
structure ServArgs where
  name : List Char
  key : Option Sealed
  info : List Char

/-- `parse_cryptserv_args`: the connection with the peer's key, and the name. -/
def parseCryptservArgs (args : ServArgs) : Option (Conn × List Char) :=
  match args.key.bind (privateDecrypt srv) with
  | none => none
  | some text =>
    if long : cipherKeyLen ≤ text.length then
      some ({ s with outKey := keyOf text long, doesTs := true }, args.name.take hostlen)
    else none

/-- The checks of `cryptlink_serv`: the connection after them, and the block for the name. -/
def servAdmit (name : List Char) : Option (Conn × ConfItem) :=
  if bogusHost name then none
  else match checkServer srv s true name with
    | .error _ => none
    | .ok s =>
      if now.serverExists name then none
      else
        let s := negotiateLazyLink srv now s
        (findConfName s.confs name).map fun aconf => (s, aconf)

/-- The greeting with our own key, which goes out once. -/
def greet (aconf : ConfItem) : Conn := if s.waitAuth then s else cryptlinkInit srv now s aconf

/-- The end of `cryptlink_serv`, once the connection has the name. -/
def servAnswer (aconf : ConfItem) : Conn :=
  match s.outCipher.or (checkCipher srv s aconf) with
  | none => s.exit
  | some cipher =>
    match publicEncrypt srv aconf.rsaPublicKey (s.outKey.1.take cipher.keylen) with
    | none => s.exit
    | some sealed =>
      { (greet srv now { s with outCipher := some cipher } aconf).send (.auth cipher.name sealed) with
        cryptOut := true }

/-- `cryptlink_serv`. Fewer parameters are `none`. -/
def cryptlinkServ (args : Option ServArgs) : Conn :=
  match args with
  | none => s.exit
  | some args =>
    if args.info = [] then s.exit
    else match parseCryptservArgs srv s args with
      | none => s.exit
      | some (s, name) =>
        match servAdmit srv now s name with
        | none => s.exit
        | some (s, aconf) => servAnswer srv now { s with name := name } aconf

/-- The parameters of `CRYPTLINK AUTH`. -/
structure AuthArgs where
  cipher : List Char
  key : Option Sealed

/-- The cipher of a `CRYPTLINK AUTH`. One that the connection does not have leaves an earlier one in place. -/
def authCipher (args : AuthArgs) : Option EncCapability :=
  (cipherTable.find? fun ecap => IrcEq ecap.name args.cipher ∧ ecap.cap ∈ s.encCaps).or s.inCipher

/-- The checks of `cryptlink_auth`: the ciphers to read and to write with, once the reply holds the key. -/
def authAdmit (args : AuthArgs) : Option (EncCapability × EncCapability) := do
  let cipher ← authCipher s args
  let key ← args.key.bind (privateDecrypt srv)
  guard (cipher.keylen ≤ key.length)
  guard (key.take cipher.keylen = s.inKey.1.take cipher.keylen)
  let aconf ← findConfName s.confs s.name
  let outCipher ← s.outCipher.or (checkCipher srv s aconf)
  return (cipher, outCipher)

/-- `cryptlink_auth`. Fewer parameters are `none`. -/
def cryptlinkAuth (args : Option AuthArgs) : Conn :=
  match args with
  | none => s.exit
  | some args =>
    if !s.waitAuth then s
    else match authAdmit srv s args with
      | none => s.exit
      | some (inCipher, outCipher) =>
        serverEstab { s with
          inCipher := some inCipher, outCipher := some outCipher, cryptIn := true, waitAuth := false }

/-! ### Runs -/

/-- A message of the connection. -/
inductive Message
  | capab (words : List (List Char))
  | pass (parv : List (List Char))
  | server (parv : List (List Char))
  | serv (args : Option ServArgs)
  | auth (args : Option AuthArgs)

/-- What a message does. A connection that is no longer unregistered has other handlers, or none. -/
def step (event : Message × Moment) : Conn :=
  match s.phase with
  | .unregistered =>
    match event.1 with
    | .capab words => mrCapab srv s words
    | .pass parv => mrPass s parv
    | .server parv => mrServer srv event.2 s parv
    | .serv args => cryptlinkServ srv event.2 s args
    | .auth args => cryptlinkAuth srv s args
  | _ => s

end Handlers

/-! ### Connections as they open -/

/-- A key of zeros, as memory is allocated. -/
def zeroKey : Key := ⟨List.replicate cipherKeyLen 0, List.length_replicate⟩

/-- A connection as `make_client` makes it. -/
def Conn.fresh (host sockhost name : List Char) : Conn :=
  { phase := .unregistered, host := host, sockhost := sockhost, name := name, passwd := [], doesTs := false,
    caps := ∅, encCaps := ∅, serverMask := 0, confs := [], waitAuth := false, inKey := zeroKey, outKey := zeroKey,
    inCipher := none, outCipher := none, cryptIn := false, cryptOut := false, sent := [] }

variable (srv : Server)

/-- `attach_connect_block`. -/
def attachConnectBlock (s : Conn) (name host : List Char) : Option Conn :=
  (srv.configItemList.find? fun aconf =>
    !aconf.illegal && aconf.status = .server && ircMatch name aconf.name && ircMatch aconf.host host).map
      s.attachConf

/-- `serv_connect` and `serv_connect_callback`, of a connection to the address `sockhost` that comes up. -/
def servConnect (now : Moment) (sockhost : List Char) (aconf : ConfItem) : Option Conn :=
  (attachConnectBlock srv (.fresh aconf.host sockhost aconf.name) aconf.name aconf.host).map fun s =>
    match findConfName s.confs s.name with
    | none => s.exit
    | some aconf =>
      if aconf.cryptLink then cryptlinkInit srv now s aconf
      else
        let greeted := (s.send .plain).send .plain
        if now.dead then greeted.exit else greeted

/-- A connection as the handshake begins, which the peer or the server itself made. -/
inductive Opened : Conn → Prop
  | accepted (host sockhost : List Char) : Opened (.fresh host sockhost [])
  | connected (now : Moment) (sockhost : List Char) (aconf : ConfItem) (s : Conn)
      (made : servConnect srv now sockhost aconf = some s) : Opened s

end Ircd.CryptLink
