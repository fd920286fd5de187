/-
# `Json.Equality` — equality of JSON values is decidable

Two values are compared part by part: arrays item by item, and objects member by
member in the order in which the members stand.
-/
import BalanceLedger.Json.Basic

namespace BalanceLedger.Json

mutual

def decEq : (v w : Json) → Decidable (v = w)
  | .null, .null => isTrue rfl
  | .bool a, .bool b => if h : a = b then isTrue (h ▸ rfl) else isFalse fun e => h (bool.inj e)
  | .int a, .int b => if h : a = b then isTrue (h ▸ rfl) else isFalse fun e => h (int.inj e)
  | .double a, .double b =>
    if h : a = b then isTrue (h ▸ rfl) else isFalse fun e => h (double.inj e)
  | .str a, .str b => if h : a = b then isTrue (h ▸ rfl) else isFalse fun e => h (str.inj e)
  | .arr xs, .arr ys =>
    match decEqItems xs ys with
    | isTrue h => isTrue (h ▸ rfl)
    | isFalse h => isFalse fun e => h (arr.inj e)
  | .obj xs, .obj ys =>
    match decEqMembers xs ys with
    | isTrue h => isTrue (h ▸ rfl)
    | isFalse h => isFalse fun e => h (obj.inj e)
  | .null, .bool _ | .null, .int _ | .null, .double _ | .null, .str _ | .null, .arr _
  | .null, .obj _ => isFalse nofun
  | .bool _, .null | .bool _, .int _ | .bool _, .double _ | .bool _, .str _ | .bool _, .arr _
  | .bool _, .obj _ => isFalse nofun
  | .int _, .null | .int _, .bool _ | .int _, .double _ | .int _, .str _ | .int _, .arr _
  | .int _, .obj _ => isFalse nofun
  | .double _, .null | .double _, .bool _ | .double _, .int _ | .double _, .str _
  | .double _, .arr _ | .double _, .obj _ => isFalse nofun
  | .str _, .null | .str _, .bool _ | .str _, .int _ | .str _, .double _ | .str _, .arr _
  | .str _, .obj _ => isFalse nofun
  | .arr _, .null | .arr _, .bool _ | .arr _, .int _ | .arr _, .double _ | .arr _, .str _
  | .arr _, .obj _ => isFalse nofun
  | .obj _, .null | .obj _, .bool _ | .obj _, .int _ | .obj _, .double _ | .obj _, .str _
  | .obj _, .arr _ => isFalse nofun

def decEqItems : (xs ys : List Json) → Decidable (xs = ys)
  | [], [] => isTrue rfl
  | v :: xs, w :: ys =>
    match decEq v w, decEqItems xs ys with
    | isTrue h, isTrue hs => isTrue (h ▸ hs ▸ rfl)
    | isFalse h, _ => isFalse fun e => h (List.cons.inj e).1
    | _, isFalse hs => isFalse fun e => hs (List.cons.inj e).2
  | [], _ :: _ | _ :: _, [] => isFalse nofun

def decEqMembers : (xs ys : List (String × Json)) → Decidable (xs = ys)
  | [], [] => isTrue rfl
  | (k, v) :: xs, (l, w) :: ys =>
    if hk : k = l then
      match decEq v w, decEqMembers xs ys with
      | isTrue h, isTrue hs => isTrue (hk ▸ h ▸ hs ▸ rfl)
      | isFalse h, _ => isFalse fun e => h (Prod.mk.inj (List.cons.inj e).1).2
      | _, isFalse hs => isFalse fun e => hs (List.cons.inj e).2
    else isFalse fun e => hk (Prod.mk.inj (List.cons.inj e).1).1
  | [], _ :: _ | _ :: _, [] => isFalse nofun

end

instance : DecidableEq Json := decEq

end BalanceLedger.Json
