import Ircd.Linebuf.Buffer

/-!
# Input of a local client

`read_packet`, `parse_client_queued` and `flood_recalc` of `src/packet.c`: what a client sends is put into its
receive queue, and the lines of the queue are dispatched. What a line does is up to the message handlers.
-/
namespace Ircd.Packet

open Linebuf

/-- `MAX_FLOOD_PER_SEC`. -/
def maxFloodPerSec : ℤ := 8

/-- `MAX_FLOOD_PER_SEC_I`, which holds in the grace period. -/
def maxFloodPerSecI : ℤ := 24

/-- What the handler of a line can do to the client: make its user, raise `allow_read` as it registers, make it
a client, end the grace period, make it a server (without servlink) or an operator, and exit it. -/
structure Effect where
  user : Bool
  grace : Bool
  registers : Bool
  floodDone : Bool
  server : Bool
  oper : Bool
  exits : Bool

/-- A local client: its receive queue, its status, its flood counters, and the lines dispatched. `unknown` is
`IsHandshake` or `IsUnknown`. -/
structure Client where
  recvq : BufHead
  unknown : Bool
  user : Bool
  floodDone : Bool
  server : Bool
  oper : Bool
  dead : Bool
  allowRead : ℤ
  actuallyRead : ℤ
  sentParsed : ℤ
  dispatched : List (List UInt8)

/-- `ConfigFileEntry.no_oper_flood` and `ConfigFileEntry.client_flood`. -/
structure FloodConf where
  noOperFlood : Bool
  clientFlood : ℤ

/-- After `release_auth_client`. -/
def Client.start : Client :=
  ⟨linebufNewbuf, true, false, false, false, false, false, maxFloodPerSec, 0, 0, []⟩

/-- `exit_client`, as far as the client itself is concerned: its input is flushed. -/
def Client.exit (s : Client) : Client := { s with dead := true, recvq := linebufNewbuf }

section

-- What the handler of the line with this number does.
variable (react : ℕ → Effect)

/-- `client_dopacket`. -/
def Client.dopacket (s : Client) (line : List UInt8) : Client :=
  let effect := react s.dispatched.length
  let s :=
    { s with
      dispatched := s.dispatched ++ [line]
      user := s.user || effect.user
      allowRead := if effect.grace then maxFloodPerSecI else s.allowRead
      unknown := s.unknown && !(effect.registers || effect.server)
      floodDone := s.floodDone || effect.floodDone
      server := s.server || effect.server
      oper := s.oper || effect.oper }
  if effect.exits then s.exit else s

/-- The loop for servers. -/
def serverLoop : ℕ → Client → Client
  | 0, s => s
  | rounds + 1, s =>
    match linebufGet s.recvq false false with
    | none => s
    | some (line, recvq) =>
      let s := { s with recvq := recvq }
      if line.buf.length = 0 then s
      else
        let s := if s.dead then s else s.dopacket react line.buf
        if s.dead then { s with recvq := linebufNewbuf } else serverLoop rounds s

/-- The loop for others. -/
def clientLoop (checkflood : Bool) : ℕ → Client → Client
  | 0, s => s
  | rounds + 1, s =>
    if s.dead then s
    else if checkflood ∧ s.sentParsed > s.allowRead then s
    else
      match linebufGet s.recvq false false with
      | none => s
      | some (line, recvq) =>
        let s := { s with recvq := recvq }
        if line.buf.length = 0 then s
        else
          let s := s.dopacket react line.buf
          clientLoop checkflood rounds { s with sentParsed := s.sentParsed + 1 }

/-- `parse_client_queued`. A loop goes round at most once for each line, and once for the end. -/
def parseClientQueued (conf : FloodConf) (s : Client) : Client :=
  if s.dead then s
  else if s.server then serverLoop react (s.recvq.list.length + 1) s
  else
    -- the source sets `checkflood` to 1 where it is declared, and to 0 here
    let checkflood := false
    let checkflood := if conf.noOperFlood && s.oper then false else checkflood
    clientLoop react checkflood (s.recvq.list.length + 1) s

/-- The count that `linebuf_parse` returns: the line it goes on with, and the new lines. -/
def parseCount (old new : BufHead) : ℤ :=
  (if old.list = [] then 0 else 1) + ((new.list.length : ℤ) - old.list.length)

/-- The part of `read_packet` that puts what has been read into the receive queue. `past` is the byte that is
in memory behind the data. -/
def Client.receive (s : Client) (data : List UInt8) (past : UInt8) : Client :=
  let recvq := linebufParse s.recvq data s.unknown past
  { s with recvq := recvq, actuallyRead := s.actuallyRead + parseCount s.recvq recvq }

/-- `read_packet`, when there is something to read. -/
def readPacket (conf : FloodConf) (s : Client) (data : List UInt8) (past : UInt8) : Client :=
  if s.dead then s
  else
    let s := s.receive data past
    if (!s.unknown && !s.server && s.user) ∧ s.recvq.alloclen > conf.clientFlood ∧
        ¬(conf.noOperFlood && s.oper) then
      s.exit
    else parseClientQueued react conf s

/-- What `flood_recalc` makes of `allow_read`. -/
def recalcAllowRead (s : Client) : ℤ :=
  if s.oper || s.server then s.allowRead
  else
    let maxFlood := if s.user && !s.floodDone then maxFloodPerSecI else maxFloodPerSec
    let allowRead :=
      if s.allowRead = 0 then 1
      else if s.actuallyRead < s.allowRead then s.allowRead + 1
      else s.allowRead - 1
    if allowRead < 1 then 1 else if allowRead > maxFlood then maxFlood else allowRead

/-- The part of `flood_recalc` before the queue is parsed. -/
def Client.recalc (s : Client) : Client :=
  { s with allowRead := recalcAllowRead s, sentParsed := 0, actuallyRead := 0 }

/-- `flood_recalc`. -/
def floodRecalc (conf : FloodConf) (s : Client) : Client := parseClientQueued react conf s.recalc

/-! ### Runs -/

/-- What happens to a client: data arrives, the timer runs, or something else exits it. -/
inductive Event where
  | read (data : List UInt8) (past : UInt8)
  | recalc
  | exit

def Client.step (conf : FloodConf) (s : Client) : Event → Client
  | .read data past => readPacket react conf s data past
  | .recalc => floodRecalc react conf s
  | .exit => if s.dead then s else s.exit

def Client.run (conf : FloodConf) (events : List Event) : Client :=
  events.foldl (Client.step react conf) Client.start

end

end Ircd.Packet
