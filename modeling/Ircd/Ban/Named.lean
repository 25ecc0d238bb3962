import Ircd.Ban.Cluster

/-!
# Who a K-line hits

`mo_kline` with all its parameters: a time, the mask or the nick, `ON` and a server, and the reason. The user and the
host of the ban are what has been named as long as they have no more than seven characters.
-/
namespace Ircd.Ban

open Chan (userLen hostLen ircMatch)

/-! ### The command -/

/-- `valid_tkline`: the time in seconds, or 0 if the text is no number. A `time_t` that overflows wraps around. -/
def validTkline (p : List Char) : ℤ :=
  if p.all Char.isDigit then
    let result := p.foldl (fun result c => Int.bmod (10 * result + c.toNat % 16) (2 ^ 64)) 0
    let result := if result = 0 then 1 else result
    let result := if result > 24 * 60 then 24 * 60 else result
    Int.bmod (result * 60) (2 ^ 64)
  else 0

/-- The client that `find_chasing` finds for a nick, if it is one that can be banned. -/
structure KlineTarget where
  username : List Char
  host : List Char
  username_len : username.length ≤ userLen
  host_len : host.length ≤ hostLen
  username_clean : '\x00' ∉ username
  host_clean : '\x00' ∉ host

/-- What `mo_kline` reads besides its parameters. `placed` is `already_placed_kline`, and `behind` are the octets that
`temphost` happens to have behind the host. -/
structure KlineContext where
  operK : Bool
  minNonwildcard : ℤ
  meName : List Char
  placed : List Char → List Char → Bool
  chase : List Char → Option KlineTarget
  behind : List Char

/-- The `ConfItem` of a K-line, with the time it is for. -/
structure KlineConf where
  user : List Char
  host : List Char
  reason : List Char
  operReason : Option (List Char)
  time : ℤ
deriving DecidableEq

/-- An `@`, or a star at the start: the parameter is no nick. -/
def isMask (userHostOrNick : List Char) : Bool := '@' ∈ userHostOrNick || userHostOrNick.head? == some '*'

/-- `find_user_host`, with the search for the nick and `cluster`. -/
def KlineContext.findUserHost (x : KlineContext) (userHostOrNick : List Char) : Option (List Char × List Char) :=
  if isMask userHostOrNick then Ban.findUserHost userHostOrNick none
  else
    (x.chase userHostOrNick).bind fun target =>
      (cluster x.behind target.host).bind fun clustered =>
        Ban.findUserHost userHostOrNick (some (target.username, clustered))

/-- What follows the time, if there is one. -/
def klineArgs (parv : List (List Char)) : List (List Char) :=
  match parv with
  | [] => []
  | first :: rest => if validTkline first > 0 then rest else first :: rest

/-- The time that is given. -/
def klineTime (parv : List (List Char)) : ℤ := (parv.head?.map validTkline).getD 0

/-- The server and the reason. A server must follow `ON`. -/
def klineServer (args : List (List Char)) : Option (Option (List Char) × List Char) :=
  let reasonOf (args : List (List Char)) := args.head?.getD ['N', 'o', ' ', 'R', 'e', 'a', 's', 'o', 'n']
  match args with
  | on :: rest =>
    if IrcEq on ['O', 'N'] then
      match rest with
      | [] => none
      | server :: rest => some (some server, reasonOf rest)
    else some (none, on)
  | [] => some (none, reasonOf [])

/-- `mo_kline`, up to the ban that it gives to `apply_kline` or to `apply_tkline`. -/
def KlineContext.moKline (x : KlineContext) (parv : List (List Char)) : Option KlineConf :=
  if x.operK then
    match klineArgs parv with
    | [] => none
    | mask :: args =>
      (x.findUserHost mask).bind fun (user, host) =>
        (klineServer args).bind fun (server, reason) =>
          if validUserHost user host ∧ validWildCard x.minNonwildcard user host ∧ validComment reason ∧
              server.all (fun name => ircMatch name x.meName) ∧ x.placed user host = false then
            some ⟨user, host, reason.takeWhile (· ≠ '|'), operReasonOf reason, klineTime parv⟩
          else none
  else none

/-- With a mask and a reason only, `mo_kline` places the permanent ban for this server. -/
theorem KlineContext.moKline_permanent (x : KlineContext) (oper : x.operK = true) (mask reason : Word)
    (explicit : isMask mask.val = true) (noTime : validTkline mask.val = 0) (noServer : ¬IrcEq reason.val ['O', 'N']) :
    x.moKline [mask.val, reason.val] = (Ban.moKline x.minNonwildcard x.placed none mask reason).map fun k =>
      ⟨k.user, k.host, k.reason, k.operReason, 0⟩ := by
  have args : klineArgs [mask.val, reason.val] = [mask.val, reason.val] := if_neg (by omega)
  have time : klineTime [mask.val, reason.val] = 0 := noTime
  have server : klineServer [reason.val] = some (none, reason.val) := if_neg noServer
  have found : x.findUserHost mask.val = Ban.findUserHost mask.val none := if_pos explicit
  unfold KlineContext.moKline Ban.moKline
  rw [if_pos oper, args]
  simp only [found, server, time, Option.map_none, Option.bind_some, Option.all_none, true_and]
  cases Ban.findUserHost mask.val none with
  | none => rfl
  | some masks =>
    obtain ⟨user, host⟩ := masks
    dsimp only [Option.bind_some]
    split <;> rfl

/-! ### Masks and nicks -/

/-- The user and the host that a mask names. -/
inductive Names : List Char → List Char → List Char → Prop where
  | userHost (user host : List Char) (noAt : '@' ∉ user) : Names (user ++ '@' :: host) user host
  | host (host : List Char) (star : host.head? = some '*') (noAt : '@' ∉ host) : Names host ['*'] host

/-- Of a user and a host that are named seven characters are kept. -/
theorem Names.findUserHost {mask user host : List Char} (names : Names mask user host) (x : KlineContext) :
    x.findUserHost mask = some (user.take 7, host.take 7) := by
  cases names with
  | userHost user host noAt =>
    have inside : '@' ∈ user ++ '@' :: host := by simp
    have before : (user ++ '@' :: host).takeWhile (fun c => decide (c ≠ '@')) = user := by
      rw [List.takeWhile_append_of_pos]
      · simp
      · intro c member
        simpa using fun equal : c = '@' => noAt (equal ▸ member)
    have after : (user ++ '@' :: host).dropWhile (fun c => decide (c ≠ '@')) = '@' :: host := by
      rw [List.dropWhile_append_of_pos]
      · simp
      · intro c member
        simpa using fun equal : c = '@' => noAt (equal ▸ member)
    unfold KlineContext.findUserHost Ban.findUserHost
    rw [if_pos (by simp [isMask]), if_pos inside, before, after]
    rfl
  | host host star noAt =>
    unfold KlineContext.findUserHost Ban.findUserHost
    rw [if_pos (by simp [isMask, star]), if_neg noAt, if_pos star]
    rfl

/-- The ban that becomes active has the masks that `find_user_host` has made. -/
theorem KlineContext.moKline_masks {x : KlineContext} {parv : List (List Char)} {mask user host : List Char}
    {conf : KlineConf} (given : (klineArgs parv).head? = some mask) (names : Names mask user host)
    (placed : x.moKline parv = some conf) : conf.user = user.take 7 ∧ conf.host = host.take 7 := by
  unfold KlineContext.moKline at placed
  split at placed
  · cases args : klineArgs parv with
    | nil => simp [args] at given
    | cons first rest =>
      rw [args] at given placed
      obtain rfl := Option.some.inj given
      simp only [names.findUserHost x, Option.bind_some] at placed
      obtain ⟨server, -, placed⟩ := Option.bind_eq_some_iff.mp placed
      split at placed
      · obtain rfl := Option.some.inj placed
        exact ⟨rfl, rfl⟩
      · cases placed
  · cases placed

/-- What is kept of the username matches it: the tilde becomes a star. -/
def UserKept (username : List Char) : Prop :=
  if username.head? = some '~' then KeptEnd username.tail username else KeptWhole username

instance (username : List Char) : Decidable (UserKept username) := inferInstanceAs (Decidable (ite _ _ _))

/-- What `find_user_host` makes of the username. -/
def userMask (username : List Char) : List Char :=
  if username.head? = some '~' then '*' :: (strlcpy username sizeofPointer).tail else strlcpy username sizeofPointer

theorem userKept_iff {username : List Char} (short : username.length ≤ userLen) (clean : '\x00' ∉ username) :
    ircMatch (userMask username) username = true ↔ UserKept username := by
  have short : username.length ≤ hostLen := short.trans (by decide)
  unfold userMask UserKept
  split
  · rename_i tilde
    cases username with
    | nil => cases tilde
    | cons c rest =>
      have rest_clean : '\x00' ∉ rest := fun member => clean (List.mem_cons_of_mem c member)
      exact keptEnd_iff rest short rest_clean clean
  · exact keptWhole_iff short clean

/-- The masks for a nick match its user and host where enough is kept of both. -/
theorem KlineContext.findUserHost_nick_iff {x : KlineContext} {nick : List Char} {target : KlineTarget}
    (noMask : isMask nick = false) (found : x.chase nick = some target) (noAt : '@' ∉ target.host) :
    (∃ user host, x.findUserHost nick = some (user, host) ∧ ircMatch user target.username = true ∧
      ircMatch host target.host = true) ↔ UserKept target.username ∧ HostKept x.behind target.host := by
  have masks : x.findUserHost nick = (hostMask x.behind target.host).map fun host => (userMask target.username, host) := by
    obtain ⟨noAtNick, noStar⟩ : '@' ∉ nick ∧ nick.head? ≠ some '*' := by
      simpa [isMask] using noMask
    unfold KlineContext.findUserHost Ban.findUserHost hostMask userMask
    rw [if_neg (by simp [noMask]), found, Option.bind_some]
    cases cluster x.behind target.host with
    | none => rfl
    | some clustered =>
      rw [Option.bind_some, if_neg noAtNick, if_neg noStar]
      rfl
  rw [← userKept_iff target.username_len target.username_clean,
    ← hostKept_iff noAt target.host_len target.host_clean, masks]
  constructor
  · rintro ⟨user, host, made, matchUser, matchHost⟩
    obtain ⟨mask, kept, equal⟩ := Option.map_eq_some_iff.mp made
    obtain ⟨rfl, rfl⟩ := Prod.mk.inj equal
    exact ⟨matchUser, mask, kept, matchHost⟩
  · rintro ⟨matchUser, mask, kept, matchHost⟩
    exact ⟨_, mask, Option.map_eq_some_iff.mpr ⟨mask, kept, rfl⟩, matchUser, matchHost⟩

/-! ### Every K-line -/

/-- The ban that becomes active has the user and the host that are named if neither has more than seven characters;
and the masks for a nick match its user and host where enough is kept of both. -/
theorem klineHits_iff (x : KlineContext) :
    (∀ parv mask user host conf, (klineArgs parv).head? = some mask → Names mask user host →
      x.moKline parv = some conf → (conf.user = user ∧ conf.host = host ↔ user.length ≤ 7 ∧ host.length ≤ 7)) ∧
    ∀ nick target, isMask nick = false → x.chase nick = some target → '@' ∉ target.host →
      ((∃ user host, x.findUserHost nick = some (user, host) ∧ ircMatch user target.username = true ∧
        ircMatch host target.host = true) ↔ UserKept target.username ∧ HostKept x.behind target.host) := by
  refine ⟨?_, fun nick target noMask found noAt => KlineContext.findUserHost_nick_iff noMask found noAt⟩
  intro parv mask user host conf given names placed
  obtain ⟨userTaken, hostTaken⟩ := KlineContext.moKline_masks given names placed
  rw [userTaken, hostTaken, List.take_eq_self_iff, List.take_eq_self_iff]

/-- Two clients that are banned by their nicks. -/
def twoClients : KlineContext where
  operK := true
  minNonwildcard := 4
  meName := ['i', 'r', 'c']
  placed := fun _ _ => false
  chase := fun nick =>
    if nick = ['j', 'o', 'e'] then
      some ⟨['~', 'j', 'o', 'e'], ['1', '.', '2', '.', '3', '.', '4'], by decide, by decide, by decide, by decide⟩
    else none
  behind := []

theorem klineHits_joe :
    (∃ conf, twoClients.moKline [['j', '@', 'a', '.', 'n', 'e', 't'], ['x']] = some conf ∧
      (conf.user = ['j'] ∧ conf.host = ['a', '.', 'n', 'e', 't'])) ∧
    ∃ user host, twoClients.findUserHost ['j', 'o', 'e'] = some (user, host) ∧
      ircMatch user ['~', 'j', 'o', 'e'] = true ∧ ircMatch host ['1', '.', '2', '.', '3', '.', '4'] = true := by
  constructor
  · refine ⟨⟨['j'], ['a', '.', 'n', 'e', 't'], ['x'], none, 0⟩, by decide, ?_⟩
    exact ((klineHits_iff twoClients).1 [['j', '@', 'a', '.', 'n', 'e', 't'], ['x']] _ _ _ _ rfl
      (.userHost ['j'] ['a', '.', 'n', 'e', 't'] (by decide)) (by decide)).mpr (by decide)
  · exact ((klineHits_iff twoClients).2 ['j', 'o', 'e'] _ (by decide) rfl (by decide)).mpr (by
      refine ⟨by decide, ⟨true, 3, some 5⟩, by decide, ?_⟩
      exact (by decide : KeptStart ['1', '.', '2', '.', '3', '.'] ['1', '.', '2', '.', '3', '.', '4']))

/-- The host of a mask is cut: somebody else is banned, or nobody. -/
theorem kline_cut : ∃ conf, twoClients.moKline
      [['j', '@', 'b', 'a', 'd', '.', 'h', 'o', 's', 't', '.', 'c', 'o', 'm']] = some conf ∧
    Names ['j', '@', 'b', 'a', 'd', '.', 'h', 'o', 's', 't', '.', 'c', 'o', 'm'] ['j']
      ['b', 'a', 'd', '.', 'h', 'o', 's', 't', '.', 'c', 'o', 'm'] ∧
    ¬(conf.user = ['j'] ∧ conf.host = ['b', 'a', 'd', '.', 'h', 'o', 's', 't', '.', 'c', 'o', 'm']) :=
  ⟨⟨['j'], ['b', 'a', 'd', '.', 'h', 'o', 's'], ['N', 'o', ' ', 'R', 'e', 'a', 's', 'o', 'n'], none, 0⟩, by decide,
    .userHost ['j'] _ (by decide), by decide⟩

end Ircd.Ban
