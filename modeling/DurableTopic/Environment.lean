import DurableTopic.Assoc
import DurableTopic.Text
/-! The environment variables of a program. -/

namespace DurableTopic

/-- The variables that are set, each with its value. An empty value is a value. -/
structure Environment where
  values : Assoc String String := ∅
  deriving Repr, DecidableEq, Inhabited

namespace Environment

/-- The value of a variable; a value ends before its first NUL. -/
def get? (e : Environment) (name : String) : Option String :=
  (e.values.find? name).map Text.beforeNul

def ofList (xs : List (String × String)) : Environment := ⟨⟨xs⟩⟩

end Environment
end DurableTopic
