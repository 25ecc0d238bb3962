import Ircd.Channel.Membership

/-!
# Sending a channel to a server

`channel_modes` and the member lines of `ts_burst_channel`. The ban lists and the topic,
which follow in lines of their own, are left out.
-/
namespace Ircd.Chan

/-- The letters in the order in which `channel_modes` writes them. -/
def modeLetters : List (SimpleMode × Char) :=
  [(.secret, 's'), (.paranoid, 'p'), (.moderated, 'm'), (.topicLimit, 't'), (.inviteOnly, 'i'),
    (.noPrivMsgs, 'n'), (.hideOps, 'a')]

/-- What `channel_modes` writes to its first buffer. -/
def Mode.letters (mode : Mode) : List Char :=
  '+' :: (modeLetters.filterMap fun entry => if entry.1 ∈ mode.mode then some entry.2 else none) ++
    (if mode.limit ≠ 0 then ['l'] else []) ++ if mode.key ≠ [] then ['k'] else []

/-- What `channel_modes` writes to its second buffer; `shown` says that the reader is a
member or a server. -/
def Mode.params (mode : Mode) (shown : Bool) : List Char :=
  if shown then (if mode.limit ≠ 0 then printD mode.limit ++ [' '] else []) ++ mode.key else []

/-- The line `":%s SJOIN %lu %s %s %s :"`. -/
def sjoinHeader (name : List Char) (ts : ℤ) (chname letters params : List Char) : List Char :=
  [':'] ++ name ++ [' ', 'S', 'J', 'O', 'I', 'N', ' '] ++ printLu (ts % 2 ^ 64).toNat ++ [' '] ++
    chname ++ [' '] ++ letters ++ [' '] ++ params ++ [' ', ':']

/-- The loop of `send_members`: the names collected so far, then those still to come. A line
is sent as soon as it is longer than `BUFSIZE - 80`. -/
def sendLoop (header opFlag : List Char) : List Char → List (List Char) → List (List Char)
  | names, [] => if names = [] then [] else [header ++ names]
  | names, name :: rest =>
    let names := names ++ opFlag ++ name ++ [' ']
    if (header ++ names).length > bufSize - 80 then
      (header ++ names) :: sendLoop header opFlag [] rest
    else sendLoop header opFlag names rest

/-- `send_members`. -/
def State.sendMembers (s : State) (letters params : List Char) (ch : Channel)
    (list : List ClientId) (opFlag : List Char) : List (List Char) :=
  sendLoop (sjoinHeader s.meName ch.channelts ch.chname letters params) opFlag []
    (list.map fun who => (s.client who).name)

/-- The `SJOIN` lines of `ts_burst_channel` to a server; `hops` says whether it has
`CAP_HOPS`. -/
def State.tsBurstChannel (s : State) (ch : Channel) (hops : Bool) : List (List Char) :=
  if ch.chname.head? ≠ some '#' then []
  else
    let letters := ch.mode.letters
    let params := ch.mode.params true
    s.sendMembers letters params ch (ch.members .chanop) ['@'] ++
      s.sendMembers letters params ch (ch.members .chanopVoiced) ['@', '+'] ++
      s.sendMembers letters params ch (ch.members .halfop) (if hops then ['%'] else ['@']) ++
      s.sendMembers letters params ch (ch.members .voiced) ['+'] ++
      s.sendMembers letters params ch (ch.members .peon) []

end Ircd.Chan
