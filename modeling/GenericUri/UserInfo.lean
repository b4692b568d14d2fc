import GenericUri.Component
import GenericUri.Percent

/-!
# UserInfo — who asks

User information is held as the text it stands for and escaped when it is written.
-/

namespace GenericUri

structure UserInfo where
  value : Text
  deriving DecidableEq

namespace UserInfo

def text (u : UserInfo) : Text := Percent.encode .userInfo u.value

def read (t : Text) : Except Fault UserInfo :=
  ((Percent.decode .userInfo t).map mk).mapError (.encoding .userInfo)

instance : Component UserInfo := ⟨read, text⟩

instance : Ord UserInfo := ⟨fun a b => compare a.value b.value⟩

end UserInfo
end GenericUri
