import GenericUri.Host
import GenericUri.Port
import GenericUri.UserInfo

/-!
# Authority — user information, host and port

User information reaches to the last `@`.  A host in brackets reaches to the first closing one, any other to the first
colon, and the port is what follows a colon after it.
-/

namespace GenericUri

structure Authority where
  userInfo : Option UserInfo
  host : Host
  port : Option Port
  deriving DecidableEq

namespace Authority

/-- The authority without its port, if the port is the given one. -/
def withoutPortIf (a : Authority) (port : Port) : Authority :=
  if a.port = some port then { a with port := none } else a

/-- The text of the host and, after a colon, the text of the port. -/
def cutPort (t : Text) : Except Fault (Text × Option Text) :=
  match t with
  | '[' :: _ =>
    match Text.cutFirst ']' t with
    | none => .error (.host t)
    | some (front, []) => .ok (front ++ [']'], none)
    | some (front, ':' :: port) => .ok (front ++ [']'], some port)
    | some _ => .error (.host t)
  | _ => .ok (Text.cutOff ':' t)

/-- User information, if any, and the text after it. -/
def cutUserInfo (t : Text) : Except Fault (Option UserInfo × Text) :=
  match Text.cutLast '@' t with
  | none => .ok (none, t)
  | some (front, rest) => (UserInfo.read front).map fun u => (some u, rest)

def read (t : Text) : Except Fault Authority := do
  let (userInfo, rest) ← cutUserInfo t
  let (hostText, portText) ← cutPort rest
  let host ← Host.read hostText
  let port ← portText.mapM Port.read
  return ⟨userInfo, host, port⟩

def text (a : Authority) : Text :=
  (a.userInfo.elim [] fun u => u.text ++ ['@']) ++ a.host.text ++ a.port.elim [] fun p => ':' :: p.digits

instance : Component Authority := ⟨read, text⟩

end Authority
end GenericUri
