/-! # Encodings

How a category that stands alone becomes columns of a design matrix: its code, one indicator for
every level, or one for every level but the first.
-/

namespace ModelFormula

inductive Encoding
  | ordinal | oneHot | dummy
  deriving DecidableEq, Repr

structure UnknownEncoding where
  text : String
  deriving DecidableEq, Repr

def UnknownEncoding.message (e : UnknownEncoding) : String :=
  s!"invalid categorical encoding '{e.text}': expected one of ordinal, one-hot, dummy"

namespace Encoding

instance : Inhabited Encoding := ⟨dummy⟩

def name : Encoding → String
  | ordinal => "ordinal"
  | oneHot => "one-hot"
  | dummy => "dummy"

instance : ToString Encoding := ⟨name⟩

/-- The encoding that a text names. Capital letters count as small ones. -/
def ofString (text : String) : Except UnknownEncoding Encoding :=
  match String.ofList (text.toList.map Char.toLower) with
  | "ordinal" => .ok ordinal
  | "one-hot" | "onehot" => .ok oneHot
  | "dummy" => .ok dummy
  | _ => .error ⟨text⟩

theorem ofString_name (e : Encoding) : ofString e.name = .ok e := by cases e <;> rfl

def width : Encoding → Nat → Nat
  | ordinal, _ => 1
  | oneHot, levels => levels
  | dummy, levels => levels - 1

end Encoding

end ModelFormula
