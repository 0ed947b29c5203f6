import PiCloud.Lib.Utf16

/-!
# Lib.Json

JSON values. The members of an object keep their order, and a name may stand twice.
-/

namespace PiCloud
namespace Lib

inductive Json where
  | null
  | bool (b : Bool)
  | num (q : Rat)
  | str (s : JsString)
  | arr (items : List Json)
  | obj (members : List (JsString × Json))
deriving Inhabited

end Lib
end PiCloud
