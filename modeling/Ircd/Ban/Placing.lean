import Ircd.Ban.File
import Ircd.Numbers

/-!
# Placing permanent bans

`mo_kline` and `mo_dline` in `modules/m_kline.c`, for a ban without a time that is for this server.
-/
namespace Ircd.Ban

open Hostmask

/-- A character that a line from a client can have inside. -/
def InLine (c : Char) : Prop := c ≠ '\n' ∧ c ≠ '\r' ∧ c ≠ '\x00'

instance : DecidablePred InLine := fun c =>
  inferInstanceAs (Decidable (c ≠ '\n' ∧ c ≠ '\r' ∧ c ≠ '\x00'))

/-- A text without the characters that end lines and strings. -/
def Word : Type := { text : List Char // ∀ c ∈ text, InLine c }

/-! ### What `write_ban` adds on its own -/

/-- The fields of `struct tm` that `smalldate` prints. -/
structure Tm where
  year : ℤ
  mon : ℤ
  mday : ℤ
  hour : ℤ
  min : ℤ
  year_range : -2 ^ 31 ≤ year + 1900 ∧ year + 1900 < 2 ^ 31
  mon_range : 0 ≤ mon ∧ mon ≤ 11
  mday_range : 1 ≤ mday ∧ mday ≤ 31
  hour_range : 0 ≤ hour ∧ hour ≤ 23
  min_range : 0 ≤ min ∧ min ≤ 59

/-- `%02d`, of a number with at most two digits. -/
def printD02 (value : ℤ) : List Char := if 0 ≤ value ∧ value < 10 then '0' :: printD value else printD value

/-- `smalldate`. -/
def smalldate (tm : Tm) : List Char :=
  printD (tm.year + 1900) ++ '/' :: (printD (tm.mon + 1) ++ '/' :: (printD tm.mday ++ ' ' ::
    (printD02 tm.hour ++ '.' :: printD02 tm.min)))

/-- What `get_oper_name` prints of an operator, within its buffer. The name in the configuration stands
between quotes there. -/
structure OperName where
  name : List Char
  username : List Char
  host : List Char
  confName : List Char
  plain : ∀ c ∈ name ++ (username ++ (host ++ confName)), InLine c ∧ c ≠ '"'
  length_lt : (name ++ (username ++ (host ++ confName))).length + 4 < 150

/-- `get_oper_name`. -/
def OperName.text (oper : OperName) : List Char :=
  oper.name ++ '!' :: (oper.username ++ '@' :: (oper.host ++ '{' :: (oper.confName ++ ['}'])))

/-- When a ban is placed, and by whom. -/
structure Stamp where
  tm : Tm
  operName : OperName
  curTime : ℤ
  curTime_range : -2 ^ 63 ≤ curTime ∧ curTime < 2 ^ 63

def Stamp.currentDate (stamp : Stamp) : List Char := smalldate stamp.tm

/-- `ircsprintf(buffer, "%s (%s)", reason, current_date)` -/
def datedReason (reason : List Char) (stamp : Stamp) : List Char :=
  reason ++ ' ' :: '(' :: (stamp.currentDate ++ [')'])

/-! ### K-lines -/

/-- `strlcpy`. -/
def strlcpy (text : List Char) (size : ℕ) : List Char := text.take (size - 1)

/-- `sizeof` of a `char *`: `find_user_host` uses it for the size of its buffers. -/
def sizeofPointer : ℕ := 8

/-- `find_user_host`. The user and the host that stand for a nick, the latter as `cluster` makes it, are
given. -/
def findUserHost (userHostOrNick : List Char) (target : Option (List Char × List Char)) :
    Option (List Char × List Char) :=
  if '@' ∈ userHostOrNick then
    some (strlcpy (userHostOrNick.takeWhile (· ≠ '@')) sizeofPointer,
      strlcpy (userHostOrNick.dropWhile (· ≠ '@')).tail sizeofPointer)
  else if userHostOrNick.head? = some '*' then
    some (['*'], strlcpy userHostOrNick sizeofPointer)
  else
    target.map fun (username, clustered) =>
      let luser := strlcpy username sizeofPointer
      (if username.head? = some '~' then '*' :: luser.tail else luser, strlcpy clustered sizeofPointer)

/-- `valid_user_host` finds nothing wrong. -/
def validUserHost (luser lhost : List Char) : Bool := '#' ∉ lhost ∧ '#' ∉ luser ∧ '!' ∉ luser

/-- `IsKWildChar`. -/
def isKWildChar (c : Char) : Bool := c ∈ ['!', '*', '.', '?', '@']

/-- `valid_wild_card` finds enough characters that are no wildcards. -/
def validWildCard (minNonwildcard : ℤ) (luser lhost : List Char) : Bool :=
  minNonwildcard ≤ (luser.countP fun c => !isKWildChar c) + (lhost.countP fun c => !isKWildChar c)

/-- `valid_comment`. -/
def validComment (comment : List Char) : Bool := '"' ∉ comment

/-- A ban that `mo_kline` gives to `apply_kline`. -/
structure Kline where
  user : List Char
  host : List Char
  reason : List Char
  operReason : Option (List Char)
deriving DecidableEq

/-- The text after the first `|`. -/
def operReasonOf (reason : List Char) : Option (List Char) :=
  if '|' ∈ reason then some (reason.dropWhile (· ≠ '|')).tail else none

/-- `mo_kline`. `placed` is `already_placed_kline`. -/
def moKline (minNonwildcard : ℤ) (placed : List Char → List Char → Bool)
    (target : Option (Word × Word)) (userHostOrNick reason : Word) : Option Kline :=
  match findUserHost userHostOrNick.val (target.map fun (username, clustered) =>
      (username.val, clustered.val)) with
  | none => none
  | some (user, host) =>
    if validUserHost user host ∧ validWildCard minNonwildcard user host ∧ validComment reason.val ∧
        placed user host = false then
      some ⟨user, host, reason.val.takeWhile (· ≠ '|'), operReasonOf reason.val⟩
    else none

/-- The `ConfItem` in the address table. -/
def Kline.active (k : Kline) (stamp : Stamp) : KConf := ⟨k.user, k.host, datedReason k.reason stamp⟩

/-- What `apply_kline` appends to the file. -/
def Kline.written (k : Kline) (stamp : Stamp) : Option (List Char) :=
  writeBan .kline (some k.user) k.host k.reason k.operReason stamp.currentDate stamp.operName.text
    stamp.curTime

/-! ### D-lines -/

/-- A ban that `mo_dline` puts into the table and gives to `write_ban`. -/
structure Dline where
  host : List Char
  reason : List Char
  operReason : Option (List Char)
deriving DecidableEq

/-- `mo_dline`, with an address. For a nick the loop of `format_netmask` does not end. `placed` is the answer
of `find_dline`. -/
def moDline (admin nonRedundantKlines placed : Bool) (dlhost : Word) (reason : Option Word) :
    Option Dline :=
  match parseNetmask dlhost.val with
  | .host => none
  | .ipv4 _ bits =>
    let text := (reason.map (·.val)).getD []
    let text := if text = [] then ['N', 'o', ' ', 'r', 'e', 'a', 's', 'o', 'n'] else text
    if validComment text ∧ ¬bits < (if admin then 8 else 24) ∧ ¬(nonRedundantKlines ∧ placed) then
      some ⟨dlhost.val, text.takeWhile (· ≠ '|'), operReasonOf text⟩
    else none

def Dline.active (d : Dline) (stamp : Stamp) : DConf := ⟨d.host, datedReason d.reason stamp⟩

/-- `mo_dline` gives no user. -/
def Dline.written (d : Dline) (stamp : Stamp) : Option (List Char) :=
  writeBan .dline none d.host d.reason d.operReason stamp.currentDate stamp.operName.text stamp.curTime

end Ircd.Ban
