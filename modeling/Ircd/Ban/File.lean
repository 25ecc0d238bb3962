import Ircd.Ban.State

/-!
# The files of bans

How `src/kdparse.c` reads `kline.conf` and `dline.conf`, how `write_ban` in `src/s_conf.c` adds a line, and
how UNKLINE and UNDLINE in `modules/m_unkline.c` take lines out.
-/
namespace Ircd.Ban

open Hostmask

/-! ### Lines -/

/-- `BUFSIZE`. -/
def bufSize : ℕ := 512

/-- The loop of `fbgets`, with the room that is left: the line, and the rest of the file. -/
def fbgets : ℕ → List Char → List Char × List Char
  | 0, file => ([], file)
  | _ + 1, [] => ([], [])
  | room + 1, c :: file =>
    if c = '\n' then (['\n'], file)
    else if c = '\r' then (['\n'], if file.head? = some '\n' then file.tail else file)
    else
      let (line, rest) := fbgets room file
      (c :: line, rest)

/-- The lines that a buffer of `BUFSIZE` gets, at most `fuel` of them. -/
def readLines : ℕ → List Char → List (List Char)
  | 0, _ => []
  | _ + 1, [] => []
  | fuel + 1, c :: file =>
    let (line, rest) := fbgets (bufSize - 1) (c :: file)
    line :: readLines fuel rest

/-- All of them: each line takes at least one character. -/
def linesOf (file : List Char) : List (List Char) := readLines file.length file

/-! ### Fields -/

/-- A buffer, and the static pointer `line` of `getfield` into it. -/
structure Reader where
  buffer : List Char
  line : Option ℕ

/-- The string at a place of a buffer. -/
def cstr (buffer : List Char) (place : ℕ) : List Char := (buffer.drop place).takeWhile (· ≠ '\x00')

/-- `getfield`: the place of the field. The quote that ends it is overwritten, so a field that is nothing
but one quote is not ended there. -/
def getfield (r : Reader) : Option ℕ × Reader :=
  match r.line with
  | none => (none, r)
  | some line =>
    let text := cstr r.buffer line
    if text.head? ≠ some '"' then (none, r)
    else if ',' ∈ text then
      let stop := line + text.idxOf ','
      if r.buffer[stop - 1]? = some '"' then
        (some (line + 1), ⟨r.buffer.set (stop - 1) '\x00', some (stop + 1)⟩)
      else (none, ⟨r.buffer, some (stop + 1)⟩)
    -- the terminating NUL is not a quote
    else (none, ⟨r.buffer, none⟩)

/-- A line without its end. -/
def chomp (line : List Char) : List Char := line.takeWhile fun c => c ≠ '\n' ∧ c ≠ '\x00'

/-- Empty lines and comments. -/
def isSkipped (text : List Char) : Bool := text = [] ∨ text.head? = some '#'

/-- A ban as it is in the server. -/
structure KConf where
  user : List Char
  host : List Char
  passwd : List Char
deriving DecidableEq

structure DConf where
  host : List Char
  passwd : List Char
deriving DecidableEq

/-- The body of the loop in `parse_k_file`. -/
def parseKLine (line : List Char) : Option KConf :=
  let text := chomp line
  if isSkipped text then none
  else
    match getfield ⟨text, some 0⟩ with
    | (none, _) => none
    | (some user, r) =>
      match getfield r with
      | (none, _) => none
      | (some host, r) =>
        match getfield r with
        | (none, _) => none
        | (some reason, r) => some ⟨cstr r.buffer user, cstr r.buffer host, cstr r.buffer reason⟩

/-- `parse_k_file`. -/
def parseKFile (file : List Char) : List KConf := (linesOf file).filterMap parseKLine

/-- The body of the loop in `parse_d_file`, with `conf_add_d_conf`. -/
def parseDLine (line : List Char) : Option DConf :=
  let text := chomp line
  if isSkipped text then none
  else
    match getfield ⟨text, some 0⟩ with
    | (none, _) => none
    | (some host, r) =>
      match getfield r with
      | (none, _) => none
      | (some reason, r) =>
        if parseNetmask (cstr r.buffer host) = .host then none
        else some ⟨cstr r.buffer host, cstr r.buffer reason⟩

/-- `parse_d_file`. -/
def parseDFile (file : List Char) : List DConf := (linesOf file).filterMap parseDLine

/-! ### Writing -/

inductive KlineType where
  | kline
  | dline
  | gline
deriving DecidableEq

/-- `"%s",` -/
def quoted (field : List Char) : List Char := '"' :: (field ++ ['"', ','])

/-- The line that `write_ban` appends. The text of a NULL pointer cannot be printed. -/
def writeBan (type : KlineType) (user : Option (List Char)) (host reason : List Char)
    (operReason : Option (List Char)) (currentDate operName : List Char) (curTime : ℤ) :
    Option (List Char) :=
  let operReason := operReason.getD []
  match type with
  | .dline =>
    user.map fun user =>
      quoted user ++ (quoted host ++ (quoted reason ++ (quoted operReason ++ (quoted currentDate ++
        (quoted operName ++ (printD curTime ++ ['\n']))))))
  -- a K-line falls through to the format of a G-line, which has no user
  | .kline | .gline =>
    some (quoted host ++ (quoted reason ++ (quoted operReason ++ (quoted currentDate ++
      (quoted operName ++ (printD curTime ++ ['\n']))))))

/-! ### Taking lines out -/

/-- A line that the loop of `mo_unkline` does not write back. -/
def unklineDrops (user host line : List Char) : Bool :=
  let text := chomp line
  if isSkipped text then false
  else
    match getfield ⟨text, some 0⟩ with
    | (none, _) => false
    | (some foundUser, r) =>
      match getfield r with
      | (none, _) => false
      | (some foundHost, r) =>
        IrcEq host (cstr r.buffer foundHost) ∧ IrcEq user (cstr r.buffer foundUser)

/-- What `mo_unkline` leaves of the file. A temporary K-line is removed instead. -/
def unklineFile (temporaryKlines : List Conf) (user host file : List Char) : List Char :=
  if temporaryKlines.any (tklineMatches host user) then file
  else ((linesOf file).filter fun line => !unklineDrops user host line).flatten

/-- A line that the loop of `mo_undline` does not write back. -/
def undlineDrops (cidr line : List Char) : Bool :=
  let text := chomp line
  if isSkipped text then false
  else
    match getfield ⟨text, some 0⟩ with
    | (none, _) => false
    | (some foundCidr, r) => IrcEq (cstr r.buffer foundCidr) cidr

/-- What `mo_undline` leaves of the file. -/
def undlineFile (cidr file : List Char) : List Char :=
  ((linesOf file).filter fun line => !undlineDrops cidr line).flatten

end Ircd.Ban
