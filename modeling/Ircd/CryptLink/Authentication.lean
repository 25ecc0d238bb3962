import Ircd.CryptLink.Handshake
import Ircd.Lib.Run

/-!
# Who a crypt link is

`cryptlink_init` seals a key under the public key of a connect block, and whoever sends the key back is taken for the
server that the connection is named after. The name is that of the last `CRYPTLINK SERV`, and the key that of the
first.
-/
namespace Ircd.CryptLink

variable {srv : Server} {now : Moment} {s s' : Conn}

/-! ### The law -/

/-- The keys that were sealed for the peer to send back. -/
def Conn.greetings (s : Conn) : List Sealed :=
  s.sent.filterMap fun
    | .serv key => some key
    | _ => none

/-- The reply holds the key that was sealed for the server that the connection is named after, whose block is a block
for crypt links from the host. The part of the key that the cipher uses is what a peer sends back. -/
def Authentic (srv : Server) (s : Conn) (args : AuthArgs) : Prop :=
  ∃ aconf rsaKey key cipher reply, findConfName s.confs s.name = some aconf ∧ aconf.cryptLink = true ∧
    s.hostMatches aconf = true ∧ aconf.rsaPublicKey = some rsaKey ∧ Line.serv ⟨rsaKey, key⟩ ∈ s.sent ∧
    authCipher s args = some cipher ∧ args.key.bind (privateDecrypt srv) = some reply ∧
    reply.take cipher.keylen = key.take cipher.keylen

/-- Every `CRYPTLINK AUTH` for which `server_estab` would be called is authentic. -/
def AdmitsAuthentic (srv : Server) (s : Conn) : Prop :=
  ∀ args, s.phase = .unregistered → (cryptlinkAuth srv s (some args)).phase = .estab → Authentic srv s args

/-- The block under the name that a `CRYPTLINK SERV` gives the connection. -/
def servBlock (srv : Server) (now : Moment) (s : Conn) (args : ServArgs) : Option ConfItem :=
  (parseCryptservArgs srv s args).bind fun parsed => (servAdmit srv now parsed.1 parsed.2).map Prod.snd

/-- A `CRYPTLINK SERV` that the connection survives names a server whose block is for crypt links from the host. While
a reply is awaited the block has the public key of the block for the name so far. -/
def SafeServ (srv : Server) (s : Conn) (event : Message × Moment) : Prop :=
  ∀ args aconf, event.1 = .serv (some args) → s.phase = .unregistered → (step srv s event).phase = .unregistered →
    servBlock srv event.2 s args = some aconf → aconf.cryptLink = true ∧ s.hostMatches aconf = true ∧
      (s.waitAuth = true → ∀ old, findConfName s.confs s.name = some old → aconf.rsaPublicKey = old.rsaPublicKey)

/-! ### What each handler does -/

@[simp] theorem exit_phase (s : Conn) : s.exit.phase = .exited := rfl

theorem send_eq (before : s.phase = .unregistered) (line : Line) : s.send line = { s with sent := s.sent ++ [line] } := by
  unfold Conn.send
  rw [before]

theorem serv_mem_iff {key : Sealed} : Line.serv key ∈ s.sent ↔ key ∈ s.greetings := by
  unfold Conn.greetings
  rw [List.mem_filterMap]
  constructor
  · exact fun member => ⟨_, member, rfl⟩
  · rintro ⟨line, member, same⟩
    cases line <;> cases same
    exact member

theorem greetings_auth (s : Conn) (cipher : List Char) (key : Sealed) (cryptOut : Bool) :
    Conn.greetings { s with sent := s.sent ++ [.auth cipher key], cryptOut := cryptOut } = s.greetings := by
  simp [Conn.greetings]

/-- What `check_server` and the rest of the checks leave alone. -/
structure Keeps (s s' : Conn) : Prop where
  phase : s'.phase = s.phase
  host : s'.host = s.host
  sockhost : s'.sockhost = s.sockhost
  waitAuth : s'.waitAuth = s.waitAuth
  inKey : s'.inKey = s.inKey
  encCaps : s'.encCaps = s.encCaps
  outCipher : s'.outCipher = s.outCipher
  sent : s'.sent = s.sent

theorem Keeps.refl (s : Conn) : Keeps s s := ⟨rfl, rfl, rfl, rfl, rfl, rfl, rfl, rfl⟩

theorem Keeps.trans {s t u : Conn} (first : Keeps s t) (second : Keeps t u) : Keeps s u :=
  ⟨second.phase.trans first.phase, second.host.trans first.host, second.sockhost.trans first.sockhost,
    second.waitAuth.trans first.waitAuth, second.inKey.trans first.inKey, second.encCaps.trans first.encCaps,
    second.outCipher.trans first.outCipher, second.sent.trans first.sent⟩

theorem Keeps.hostMatches (keeps : Keeps s s') (aconf : ConfItem) : s'.hostMatches aconf = s.hostMatches aconf := by
  unfold Conn.hostMatches
  rw [keeps.host, keeps.sockhost]

theorem keeps_attachConf (s : Conn) (aconf : ConfItem) : Keeps s (s.attachConf aconf) := by
  unfold Conn.attachConf
  split <;> exact ⟨rfl, rfl, rfl, rfl, rfl, rfl, rfl, rfl⟩

theorem keeps_attachAll (aconfs : List ConfItem) (s : Conn) : Keeps s (aconfs.foldl Conn.attachConf s) := by
  induction aconfs generalizing s with
  | nil => exact Keeps.refl s
  | cons aconf aconfs ih => exact (keeps_attachConf s aconf).trans (ih _)

theorem keeps_useConf (name : List Char) (aconf : ConfItem) : Keeps s (useConf srv s name aconf) := by
  have attached := (keeps_attachConf s aconf).trans (keeps_attachAll (hubLeafConfs srv name) _)
  exact ⟨attached.phase, attached.host, attached.sockhost, attached.waitAuth, attached.inKey, attached.encCaps,
    attached.outCipher, attached.sent⟩

theorem keeps_checkServer {cryptlink : Bool} {name : List Char}
    (checked : checkServer srv s cryptlink name = .ok s') : Keeps s s' := by
  unfold checkServer at checked
  split at checked
  · cases checked
  next aconf _ =>
    cases checked
    exact keeps_useConf name aconf

theorem keeps_negotiateLazyLink (s : Conn) : Keeps s (negotiateLazyLink srv now s) := by
  unfold negotiateLazyLink
  split
  · split
    · split <;> exact ⟨rfl, rfl, rfl, rfl, rfl, rfl, rfl, rfl⟩
    · split <;> exact ⟨rfl, rfl, rfl, rfl, rfl, rfl, rfl, rfl⟩
  · exact Keeps.refl s

theorem servAdmit_spec {name : List Char} {aconf : ConfItem} (admitted : servAdmit srv now s name = some (s', aconf)) :
    Keeps s s' ∧ findConfName s'.confs name = some aconf := by
  unfold servAdmit at admitted
  split at admitted
  · cases admitted
  split at admitted
  · cases admitted
  next checked =>
  split at admitted
  · cases admitted
  obtain ⟨found, block, pair⟩ := Option.map_eq_some_iff.mp admitted
  cases pair
  exact ⟨(keeps_checkServer checked).trans (keeps_negotiateLazyLink _), block⟩

theorem keeps_parseCryptservArgs {args : ServArgs} {name : List Char}
    (parsed : parseCryptservArgs srv s args = some (s', name)) : Keeps s s' ∧ srv.rsaPrivateKey.isSome := by
  unfold parseCryptservArgs at parsed
  split at parsed
  · cases parsed
  next text opened =>
  split at parsed
  · cases parsed
    obtain ⟨key, -, opens⟩ := Option.bind_eq_some_iff.mp opened
    unfold privateDecrypt at opens
    split at opens
    next own => exact ⟨⟨rfl, rfl, rfl, rfl, rfl, rfl, rfl, rfl⟩, by rw [own]; rfl⟩
    · cases opens
  · cases parsed

/-- What a connection becomes that gets its answer to a `CRYPTLINK SERV` with this block: it awaits the key of the
first greeting, which was sealed under the public key of this block if it is the first that is named. -/
structure Answered (s s' : Conn) (aconf : ConfItem) : Prop where
  name : s'.name = s.name
  confs : s'.confs = s.confs
  host : s'.host = s.host
  sockhost : s'.sockhost = s.sockhost
  encCaps : s'.encCaps = s.encCaps
  waitAuth : s'.waitAuth = true
  later : s.waitAuth = true → s'.inKey = s.inKey ∧ s'.greetings = s.greetings
  first : s.waitAuth = false → ∃ rsaKey, aconf.rsaPublicKey = some rsaKey ∧
    s'.greetings = s.greetings ++ [⟨rsaKey, s'.inKey.1⟩]

theorem cryptlinkInit_answered {aconf : ConfItem} (unasked : s.waitAuth = false) (before : s.phase = .unregistered)
    (alive : (cryptlinkInit srv now s aconf).phase = .unregistered) :
    Answered s (cryptlinkInit srv now s aconf) aconf ∧ (cryptlinkInit srv now s aconf).outCipher = s.outCipher := by
  unfold cryptlinkInit at alive ⊢
  split at alive
  next rsaKey randkey _ public_ _ =>
    split at alive
    · cases alive
    next sealed encrypted =>
    unfold publicEncrypt at encrypted
    simp only at encrypted
    split at encrypted
    · cases encrypted
      split at alive
      · cases alive
      next awake =>
      rw [if_neg awake]
      refine ⟨⟨?_, ?_, ?_, ?_, ?_, rfl, fun asked => ?_, fun _ => ⟨rsaKey, public_, ?_⟩⟩, ?_⟩
      all_goals simp_all [Conn.send, Conn.greetings]
    · cases encrypted
  · cases alive

theorem greet_answered {aconf : ConfItem} (before : s.phase = .unregistered)
    (alive : (greet srv now s aconf).phase = .unregistered) :
    Answered s (greet srv now s aconf) aconf ∧ (greet srv now s aconf).outCipher = s.outCipher := by
  unfold greet at alive ⊢
  cases asked : s.waitAuth with
  | true =>
    rw [if_pos rfl]
    exact ⟨⟨rfl, rfl, rfl, rfl, rfl, asked, fun _ => ⟨rfl, rfl⟩, fun unasked => by simp [asked] at unasked⟩, rfl⟩
  | false =>
    rw [asked] at alive
    exact cryptlinkInit_answered asked before alive

/-- A connection that survives the end of `cryptlink_serv` has its answer, and a cipher to write with. -/
theorem servAnswer_answered {aconf : ConfItem} (before : s.phase = .unregistered)
    (alive : (servAnswer srv now s aconf).phase = .unregistered) :
    Answered s (servAnswer srv now s aconf) aconf ∧ (servAnswer srv now s aconf).outCipher.isSome ∧
      (s.outCipher.isSome ∨ s.encCaps.Nonempty) := by
  unfold servAnswer at alive ⊢
  split at alive
  · cases alive
  next cipher chosen =>
  split at alive
  · cases alive
  next sealed encrypted =>
  have greeted : (greet srv now { s with outCipher := some cipher } aconf).phase = .unregistered := by
    revert alive
    cases phase : (greet srv now { s with outCipher := some cipher } aconf).phase <;> simp [Conn.send, phase]
  obtain ⟨answered, kept⟩ := greet_answered (s := { s with outCipher := some cipher }) before greeted
  rw [send_eq greeted]
  refine ⟨⟨answered.name, answered.confs, answered.host, answered.sockhost, answered.encCaps, answered.waitAuth,
    fun asked => ?_, fun unasked => ?_⟩, ?_, ?_⟩
  · obtain ⟨inKey, greetings⟩ := answered.later asked
    exact ⟨inKey, (greetings_auth ..).trans greetings⟩
  · obtain ⟨rsaKey, public_, greetings⟩ := answered.first unasked
    exact ⟨rsaKey, public_, (greetings_auth ..).trans greetings⟩
  · change (greet srv now { s with outCipher := some cipher } aconf).outCipher.isSome
    rw [kept]
    rfl
  · rcases Option.or_eq_some_iff.mp chosen with earlier | ⟨-, checked⟩
    · exact Or.inl (by rw [earlier]; rfl)
    · unfold checkCipher at checked
      simp only at checked
      split at checked
      next capable => exact Or.inr ⟨_, capable⟩
      · cases checked

/-- A connection that survives a `CRYPTLINK SERV` has the answer of the block that is found under its new name. -/
theorem cryptlinkServ_cases {args : Option ServArgs}
    (alive : (cryptlinkServ srv now s args).phase = .unregistered) :
    ∃ given named aconf, args = some given ∧ servBlock srv now s given = some aconf ∧ Keeps s named ∧
      findConfName named.confs named.name = some aconf ∧ srv.rsaPrivateKey.isSome ∧
      cryptlinkServ srv now s args = servAnswer srv now named aconf := by
  unfold cryptlinkServ at alive ⊢
  split at alive
  · cases alive
  next given =>
  split at alive
  · cases alive
  next described =>
  split at alive
  · cases alive
  next s₁ name parsed =>
  split at alive
  · cases alive
  next s₂ aconf admitted =>
  obtain ⟨keeps₁, own⟩ := keeps_parseCryptservArgs parsed
  obtain ⟨keeps₂, found⟩ := servAdmit_spec admitted
  have keeps := keeps₁.trans keeps₂
  refine ⟨given, { s₂ with name := name }, aconf, rfl, ?_, ?_, found, own, ?_⟩
  · unfold servBlock
    rw [parsed, Option.bind_some, admitted]
    rfl
  · exact ⟨keeps.phase, keeps.host, keeps.sockhost, keeps.waitAuth, keeps.inKey, keeps.encCaps, keeps.outCipher,
      keeps.sent⟩
  · rw [if_neg described]

/-- `mr_capab` ends the connection, or adds capabilities. -/
theorem capabWords_cases (words : List (List Char)) {cipher : Option ℕ}
    (known : ∀ cap ∈ cipher, ∃ ecap ∈ cipherTable, ecap.cap = cap)
    (alive : (capabWords srv words cipher s).phase = .unregistered) :
    ∃ caps encCaps, capabWords srv words cipher s = { s with caps := caps, encCaps := encCaps } ∧
      s.encCaps ⊆ encCaps ∧ ∀ cap ∈ encCaps, cap ∈ s.encCaps ∨ ∃ ecap ∈ cipherTable, ecap.cap = cap := by
  induction words generalizing cipher s with
  | nil => exact ⟨s.caps, s.encCaps, rfl, Finset.Subset.refl _, fun _ => Or.inl⟩
  | cons word words ih =>
    unfold capabWords at alive ⊢
    split at alive
    next enc =>
      rw [if_pos enc]
      split at alive
      · cases alive
      next cap chosen =>
      have entry : ∃ ecap ∈ cipherTable, ecap.cap = cap := by
        rcases Option.or_eq_some_iff.mp chosen with named | ⟨-, earlier⟩
        · obtain ⟨ecap, found, same⟩ := Option.map_eq_some_iff.mp named
          exact ⟨ecap, List.mem_of_find?_eq_some found, same⟩
        · exact known cap earlier
      obtain ⟨caps, encCaps, same, more, from_⟩ := ih (by rintro _ ⟨⟩; exact entry) alive
      refine ⟨caps, encCaps, same, (Finset.subset_insert ..).trans more, fun other member => ?_⟩
      rcases from_ other member with added | table
      · rcases Finset.mem_insert.mp added with rfl | old
        · exact Or.inr entry
        · exact Or.inl old
      · exact Or.inr table
    next plain =>
      rw [if_neg plain]
      split at alive <;> exact ih known alive

theorem serverEstab_phase (s : Conn) : (serverEstab s).phase ≠ .unregistered := by
  unfold serverEstab
  split <;> simp

theorem mrServer_phase (parv : List (List Char)) : (mrServer srv now s parv).phase ≠ .unregistered := by
  unfold mrServer
  split
  · split
    · simp
    split
    · simp
    split
    · simp
    split
    · simp
    · exact serverEstab_phase _
  · simp

/-- What the reply holds, where `cryptlink_auth` finds nothing against it. -/
def Accepts (srv : Server) (s : Conn) (args : AuthArgs) : Prop :=
  ∃ cipher reply aconf, authCipher s args = some cipher ∧ args.key.bind (privateDecrypt srv) = some reply ∧
    cipher.keylen ≤ reply.length ∧ reply.take cipher.keylen = s.inKey.1.take cipher.keylen ∧
    findConfName s.confs s.name = some aconf ∧ (s.outCipher.or (checkCipher srv s aconf)).isSome

theorem authAdmit_isSome {args : AuthArgs} : (authAdmit srv s args).isSome ↔ Accepts srv s args := by
  unfold authAdmit Accepts
  cases authCipher s args with
  | none => simp
  | some cipher =>
    cases args.key.bind (privateDecrypt srv) with
    | none => simp
    | some reply =>
      cases findConfName s.confs s.name with
      | none => simp
      | some aconf =>
        by_cases long : cipher.keylen ≤ reply.length
        · by_cases same : reply.take cipher.keylen = s.inKey.1.take cipher.keylen
          · simp [guard, long, same, Option.isSome_bind]
          · simp [guard, long, same]
        · simp [guard, long]

/-- A reply that the connection awaits ends the handshake exactly if it is accepted. -/
theorem cryptlinkAuth_estab {args : AuthArgs} (before : s.phase = .unregistered) :
    (cryptlinkAuth srv s (some args)).phase = .estab ↔ s.waitAuth = true ∧ Accepts srv s args := by
  rw [← authAdmit_isSome]
  unfold cryptlinkAuth
  cases s.waitAuth with
  | false => simp [before]
  | true =>
    cases admitted : authAdmit srv s args with
    | none => simp [admitted]
    | some ciphers =>
      obtain ⟨_, _, aconf, -, -, -, -, found, -⟩ := authAdmit_isSome.mp (by rw [admitted]; rfl)
      simp [admitted, serverEstab, found]

/-- A reply leaves the connection unregistered only if none is awaited. -/
theorem cryptlinkAuth_alive {args : Option AuthArgs} (alive : (cryptlinkAuth srv s args).phase = .unregistered) :
    cryptlinkAuth srv s args = s := by
  unfold cryptlinkAuth at alive ⊢
  split at alive
  · cases alive
  next given =>
  split at alive
  next unasked => rw [if_pos unasked]
  split at alive
  · cases alive
  · exact absurd alive (serverEstab_phase _)

/-! ### What holds while the handshake lasts -/

/-- The handshake of an unregistered connection: nothing is sealed before a reply is awaited, and then it was sealed once,
for the server that the connection is named after. -/
structure Sound (s : Conn) : Prop where
  unasked : s.waitAuth = false → s.greetings = []
  asked : s.waitAuth = true → ∃ aconf rsaKey, findConfName s.confs s.name = some aconf ∧ aconf.cryptLink = true ∧
    s.hostMatches aconf = true ∧ aconf.rsaPublicKey = some rsaKey ∧ s.greetings = [⟨rsaKey, s.inKey.1⟩]
  encCaps : ∀ cap ∈ s.encCaps, ∃ ecap ∈ cipherTable, ecap.cap = cap
  ciphered : s.outCipher.isSome → s.encCaps.Nonempty

/-- A sound handshake, as long as there is one. -/
def SoundWhile (s : Conn) : Prop := s.phase = .unregistered → Sound s

/-- In a sound handshake an accepted reply is authentic. -/
theorem Sound.authentic (sound : Sound s) : AdmitsAuthentic srv s := by
  intro args before estab
  obtain ⟨asked, cipher, reply, _, chosen, opened, -, same, -⟩ := (cryptlinkAuth_estab before).mp estab
  obtain ⟨aconf, rsaKey, found, cryptLink, host, public_, greetings⟩ := sound.asked asked
  refine ⟨aconf, rsaKey, s.inKey.1, cipher, reply, found, cryptLink, host, public_, ?_, chosen, opened, same⟩
  rw [serv_mem_iff, greetings]
  exact List.mem_singleton_self _

theorem greetings_of_keeps (keeps : Keeps s s') : s'.greetings = s.greetings := by
  unfold Conn.greetings
  rw [keeps.sent]

/-- The answer to a `CRYPTLINK SERV` keeps the handshake sound if its block is the right one. -/
theorem Sound.answered {named : Conn} {aconf : ConfItem} (sound : Sound s) (keeps : Keeps s named)
    (answer : Answered named s' aconf) (found : findConfName named.confs named.name = some aconf)
    (ciphers : named.outCipher.isSome ∨ named.encCaps.Nonempty) (cryptLink : aconf.cryptLink = true)
    (host : s.hostMatches aconf = true)
    (samePublic : s.waitAuth = true → ∀ old, findConfName s.confs s.name = some old →
      aconf.rsaPublicKey = old.rsaPublicKey) : Sound s' where
  unasked unasked := by rw [answer.waitAuth] at unasked; cases unasked
  asked _ := by
    have found' : findConfName s'.confs s'.name = some aconf := by rw [answer.confs, answer.name, found]
    have host' : s'.hostMatches aconf = true := by
      rw [← host, ← keeps.hostMatches]
      unfold Conn.hostMatches
      rw [answer.host, answer.sockhost]
    cases asked : s.waitAuth with
    | true =>
      -- a second name: the greeting is the one of the first
      obtain ⟨old, rsaKey, foundOld, -, -, public_, greetings⟩ := sound.asked asked
      obtain ⟨inKey, kept⟩ := answer.later (by rw [keeps.waitAuth, asked])
      refine ⟨aconf, rsaKey, found', cryptLink, host', (samePublic asked old foundOld).trans public_, ?_⟩
      rw [kept, greetings_of_keeps keeps, greetings, inKey, keeps.inKey]
    | false =>
      obtain ⟨rsaKey, public_, greetings⟩ := answer.first (by rw [keeps.waitAuth, asked])
      refine ⟨aconf, rsaKey, found', cryptLink, host', public_, ?_⟩
      rw [greetings, greetings_of_keeps keeps, sound.unasked asked, List.nil_append]
  encCaps := by rw [answer.encCaps, keeps.encCaps]; exact sound.encCaps
  ciphered _ := by
    rw [answer.encCaps, keeps.encCaps]
    rcases ciphers with cipher | capable
    · exact sound.ciphered (by rw [← keeps.outCipher]; exact cipher)
    · rw [← keeps.encCaps]
      exact capable

/-- One message keeps the handshake sound if it is safe. -/
theorem SoundWhile.step {event : Message × Moment} (sound : SoundWhile s) (safe : SafeServ srv s event) :
    SoundWhile (step srv s event) := by
  intro alive
  obtain ⟨message, now⟩ := event
  cases before : s.phase with
  | exited => simp [CryptLink.step, before] at alive
  | estab => simp [CryptLink.step, before] at alive
  | unregistered =>
    have here := sound before
    cases message with
    | capab words =>
      have same : CryptLink.step srv s (.capab words, now) = mrCapab srv s words := by simp [CryptLink.step, before]
      rw [same] at alive ⊢
      unfold mrCapab at alive ⊢
      split at alive
      · cases alive
      next first =>
      rw [if_neg first]
      obtain ⟨caps, encCaps, result, more, table⟩ := capabWords_cases words (by simp) alive
      rw [result]
      exact ⟨here.unasked, here.asked, fun cap member => (table cap member).elim (here.encCaps cap) id,
        fun cipher => (here.ciphered cipher).mono more⟩
    | pass parv =>
      have same : CryptLink.step srv s (.pass parv, now) = mrPass s parv := by simp [CryptLink.step, before]
      rw [same]
      unfold mrPass
      split
      · exact here
      · exact here
      · exact ⟨here.unasked, here.asked, here.encCaps, here.ciphered⟩
    | server parv =>
      have same : CryptLink.step srv s (.server parv, now) = mrServer srv now s parv := by
        simp [CryptLink.step, before]
      rw [same] at alive
      exact absurd alive (mrServer_phase parv)
    | serv args =>
      have same : CryptLink.step srv s (.serv args, now) = cryptlinkServ srv now s args := by
        simp [CryptLink.step, before]
      have survives := alive
      rw [same] at alive ⊢
      obtain ⟨given, named, aconf, rfl, block, keeps, found, -, answers⟩ := cryptlinkServ_cases alive
      rw [answers] at alive ⊢
      obtain ⟨answered, -, ciphers⟩ := servAnswer_answered (keeps.phase.trans before) alive
      obtain ⟨cryptLink, host, samePublic⟩ := safe given aconf rfl before survives block
      exact here.answered keeps answered found ciphers cryptLink host samePublic
    | auth args =>
      have same : CryptLink.step srv s (.auth args, now) = cryptlinkAuth srv s args := by simp [CryptLink.step, before]
      rw [same] at alive ⊢
      rw [cryptlinkAuth_alive alive]
      exact here

/-- A peer that opened the greeting has a reply that is accepted. -/
theorem exists_accepts {aconf : ConfItem} (own : srv.rsaPrivateKey.isSome) (capable : s.encCaps.Nonempty)
    (table : ∀ cap ∈ s.encCaps, ∃ ecap ∈ cipherTable, ecap.cap = cap)
    (found : findConfName s.confs s.name = some aconf) (writes : s.outCipher.isSome) : ∃ args, Accepts srv s args := by
  obtain ⟨rsaKey, own⟩ := Option.isSome_iff_exists.mp own
  obtain ⟨cap, usable⟩ := capable
  obtain ⟨ecap, member, rfl⟩ := table cap usable
  have listed : (cipherTable.find? fun other => IrcEq other.name ecap.name ∧ other.cap ∈ s.encCaps).isSome := by
    rw [List.find?_isSome]
    exact ⟨ecap, member, by simp [usable, IrcEq.refl]⟩
  obtain ⟨cipher, first⟩ := Option.isSome_iff_exists.mp listed
  have short : cipher.keylen ≤ s.inKey.1.length := by
    rw [s.inKey.2]
    exact keylen_le cipher (List.mem_of_find?_eq_some first)
  refine ⟨⟨ecap.name, some ⟨rsaKey, s.inKey.1⟩⟩, cipher, s.inKey.1, aconf, ?_, ?_, short, rfl, found, ?_⟩
  · unfold authCipher
    rw [first]
    rfl
  · rw [Option.bind_some, privateDecrypt, if_pos own]
  · rw [Option.isSome_or, writes]
    rfl

/-- A message is safe if every reply that is accepted after it is authentic. -/
theorem SoundWhile.safeServ {event : Message × Moment} (sound : SoundWhile s)
    (admits : AdmitsAuthentic srv (CryptLink.step srv s event)) : SafeServ srv s event := by
  intro args aconf named before alive block
  obtain ⟨message, now⟩ := event
  cases named
  have same : CryptLink.step srv s (.serv (some args), now) = cryptlinkServ srv now s (some args) := by
    simp [CryptLink.step, before]
  rw [same] at alive admits
  obtain ⟨_, named, _, given, block', keeps, found, own, answers⟩ := cryptlinkServ_cases alive
  cases given
  cases block.symm.trans block'
  rw [answers] at alive admits
  obtain ⟨answered, writes, ciphers⟩ := servAnswer_answered (keeps.phase.trans before) alive
  have here := sound before
  have found' : findConfName (servAnswer srv now named aconf).confs (servAnswer srv now named aconf).name =
      some aconf := by rw [answered.confs, answered.name, found]
  have capable : (servAnswer srv now named aconf).encCaps.Nonempty := by
    rw [answered.encCaps]
    rcases ciphers with cipher | capable
    · rw [keeps.encCaps]
      exact here.ciphered (by rw [← keeps.outCipher]; exact cipher)
    · exact capable
  -- the reply of the peer that opened the greeting shows what the block is
  obtain ⟨reply, accepts⟩ := exists_accepts own capable
    (by rw [answered.encCaps, keeps.encCaps]; exact here.encCaps) found' writes
  obtain ⟨aconf', rsaKey, key, cipher, text, block', cryptLink, host, public_, sent, -⟩ :=
    admits reply alive ((cryptlinkAuth_estab alive).mpr ⟨answered.waitAuth, accepts⟩)
  cases found'.symm.trans block'
  refine ⟨cryptLink, ?_, fun asked old foundOld => ?_⟩
  · rw [← host, ← keeps.hostMatches]
    unfold Conn.hostMatches
    rw [answered.host, answered.sockhost]
  · obtain ⟨old', rsaKey', foundOld', -, -, publicOld, greetings⟩ := here.asked asked
    cases foundOld.symm.trans foundOld'
    obtain ⟨-, kept⟩ := answered.later (by rw [keeps.waitAuth, asked])
    rw [serv_mem_iff, kept, greetings_of_keeps keeps, greetings, List.mem_singleton] at sent
    cases sent
    rw [public_, publicOld]

/-! ### The handshake from its beginning -/

theorem sound_fresh (host sockhost name : List Char) : Sound (.fresh host sockhost name) where
  unasked _ := rfl
  asked asked := by cases asked
  encCaps _ member := absurd member (Finset.notMem_empty _)
  ciphered cipher := by cases cipher

/-- A connection is sound when it opens. -/
theorem Opened.sound (opened : Opened srv s) : SoundWhile s := by
  intro alive
  cases opened with
  | accepted host sockhost => exact sound_fresh host sockhost []
  | connected now sockhost wanted s made =>
    obtain ⟨_, attaches, made⟩ := Option.map_eq_some_iff.mp made
    obtain ⟨block, fits, rfl⟩ := Option.map_eq_some_iff.mp attaches
    have legal : block.illegal = false ∧ Chan.ircMatch block.host wanted.host = true := by
      have suitable := List.find?_some fits
      simp only [Bool.and_eq_true, Bool.not_eq_true'] at suitable
      exact ⟨suitable.1.1.1, suitable.2⟩
    have start : (Conn.fresh wanted.host sockhost wanted.name).attachConf block =
        { Conn.fresh wanted.host sockhost wanted.name with confs := [block] } := by
      simp [Conn.attachConf, legal.1, Conn.fresh]
    rw [start] at made
    have begun := sound_fresh wanted.host sockhost wanted.name
    simp only at made
    split at made
    · rw [← made] at alive
      cases alive
    next aconf found =>
    have only : aconf = block := by
      simpa using List.mem_of_find?_eq_some found
    subst only
    split at made
    next cryptLink =>
      subst made
      obtain ⟨answered, cipher⟩ := cryptlinkInit_answered rfl rfl alive
      refine ⟨fun unasked => ?_, fun _ => ?_, ?_, ?_⟩
      · rw [answered.waitAuth] at unasked
        cases unasked
      · obtain ⟨rsaKey, public_, greetings⟩ := answered.first rfl
        refine ⟨aconf, rsaKey, ?_, cryptLink, ?_, public_, ?_⟩
        · rw [answered.confs, answered.name]
          exact found
        · unfold Conn.hostMatches
          rw [answered.host]
          simp [Conn.fresh, legal.2]
        · rw [greetings]
          rfl
      · rw [answered.encCaps]
        exact begun.encCaps
      · rw [answered.encCaps, cipher]
        exact begun.ciphered
    next plain =>
      -- the greeting of a link without keys
      split at made
      · rw [← made] at alive
        cases alive
      · subst made
        exact ⟨fun _ => rfl, nofun, begun.encCaps, begun.ciphered⟩

/-- The replies that are accepted in the course of a handshake are all authentic exactly if every `CRYPTLINK SERV` that
the connection survives is safe. -/
theorem admitsAuthentic_iff (opened : Opened srv s) (events : List (Message × Moment)) :
    (∀ k, AdmitsAuthentic srv ((events.take k).foldl (step srv) s)) ↔ Along (step srv) (SafeServ srv) s events := by
  have law : ∀ s, SoundWhile s → AdmitsAuthentic srv s := by
    intro s sound args before
    exact (sound before).authentic args before
  exact forall_take_iff_along law (fun s e sound => sound.safeServ) (fun s e sound => sound.step) opened.sound

/-! ### Two servers on one connection -/

/-- A connect block for a crypt link. -/
def cryptBlock (name : List Char) (rsaKey : RsaKey) : ConfItem :=
  { status := .server, illegal := false, name := name, host := ['h'], passwd := [], encrypted := false,
    cryptLink := true, lazyLink := false, compressed := false, rsaPublicKey := some rsaKey, cipherPreference := none }

/-- A server with two crypt links, to `a.x` and to `b.x`. -/
def twoLinks : Server :=
  { configItemList := [cryptBlock ['a', '.', 'x'] ⟨1⟩, cryptBlock ['b', '.', 'x'] ⟨2⟩], hub := false,
    rsaPrivateKey := some ⟨0⟩, defaultCipherPreference := ⟨"BF/128".toList, 0, 16⟩, capEncMask := {0},
    crypt := fun key _ => key, fits := fun _ _ => true }

def quietMoment : Moment := { serverExists := fun _ => false, freeMask := 0, randomness := some zeroKey, dead := false }

/-- `CRYPTLINK SERV`, with a key for the server to send back. -/
def servLine (name : List Char) : Message × Moment :=
  (.serv (some ⟨name, some ⟨⟨0⟩, List.replicate 64 1⟩, ['i']⟩), quietMoment)

/-- The peer is `a.x`, whose key opens the first greeting, and calls itself `b.x` before it sends the key back. -/
def renamedRun : List (Message × Moment) :=
  [(.capab ["ENC:BF/128".toList], quietMoment), servLine ['a', '.', 'x'], servLine ['b', '.', 'x']]

def firstReply : AuthArgs := ⟨"BF/128".toList, some ⟨⟨0⟩, zeroKey.1⟩⟩

set_option maxRecDepth 20000 in
/-- The key of `a.x` makes the connection a link to `b.x`. -/
theorem reply_admits_other_server :
    ¬ ∀ k, AdmitsAuthentic twoLinks ((renamedRun.take k).foldl (step twoLinks) (.fresh ['h'] ['h'] [])) := by
  intro authentic
  have estab : (cryptlinkAuth twoLinks (renamedRun.foldl (step twoLinks) (.fresh ['h'] ['h'] []))
      (some firstReply)).phase = .estab := by decide +kernel
  obtain ⟨aconf, rsaKey, key, _, _, found, -, -, public_, sent, -⟩ := authentic 3 firstReply (by decide +kernel) estab
  have block : findConfName (renamedRun.foldl (step twoLinks) (.fresh ['h'] ['h'] [])).confs
      (renamedRun.foldl (step twoLinks) (.fresh ['h'] ['h'] [])).name = some (cryptBlock ['b', '.', 'x'] ⟨2⟩) := by
    decide +kernel
  have greetings : (renamedRun.foldl (step twoLinks) (.fresh ['h'] ['h'] [])).greetings = [⟨⟨1⟩, zeroKey.1⟩] := by
    decide +kernel
  cases block.symm.trans found
  cases public_
  rw [serv_mem_iff] at sent
  rw [show renamedRun.take 3 = renamedRun from rfl, greetings, List.mem_singleton] at sent
  cases sent

theorem admitsAuthentic_iff_accepted :
    (∀ k, AdmitsAuthentic twoLinks (((renamedRun.take 2).take k).foldl (step twoLinks) (.fresh ['h'] ['h'] []))) ↔
      Along (step twoLinks) (SafeServ twoLinks) (.fresh ['h'] ['h'] []) (renamedRun.take 2) :=
  admitsAuthentic_iff (.accepted ['h'] ['h']) _

end Ircd.CryptLink
