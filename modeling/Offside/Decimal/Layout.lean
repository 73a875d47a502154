import Offside.Decimal.Double
import Offside.Decimal.Shortest

namespace Offside.Decimal

/-- `keepsPoint` says whether a whole number ends in `.0`, and `isPositional` which magnitudes are
written without an exponent. -/
structure Layout where
  keepsPoint : Bool
  isPositional : (magnitude : Int) → Bool

namespace Layout

private def zeros (n : Nat) : List Char := List.replicate n '0'

/-- The digits of a number whose first digit stands for tens to the power `magnitude`. -/
def positional (layout : Layout) (ds : List Char) (magnitude : Int) : List Char :=
  if magnitude < 0 then ['0', '.'] ++ zeros (-magnitude - 1).toNat ++ ds
  else
    let whole := magnitude.toNat + 1
    if ds.length ≤ whole then
      ds ++ zeros (whole - ds.length) ++ if layout.keepsPoint then ['.', '0'] else []
    else ds.take whole ++ '.' :: ds.drop whole

theorem mem_positional {layout : Layout} {ds : List Char} {magnitude : Int} {c : Char}
    (h : c ∈ layout.positional ds magnitude) : c ∈ ds ∨ c = '0' ∨ c = '.' := by
  have hzeros {n : Nat} (hc : c ∈ zeros n) : c = '0' := List.eq_of_mem_replicate hc
  unfold positional at h
  split at h
  · simp only [List.mem_append, List.mem_cons, List.not_mem_nil, or_false] at h
    rcases h with (hpoint | hc) | hds
    · exact .inr hpoint
    · exact .inr (.inl (hzeros hc))
    · exact .inl hds
  · dsimp only at h
    split at h
    · simp only [List.mem_append] at h
      rcases h with (hds | hc) | hpoint
      · exact .inl hds
      · exact .inr (.inl (hzeros hc))
      · split at hpoint
        · simp only [List.mem_cons, List.not_mem_nil, or_false] at hpoint
          exact .inr hpoint.symm
        · cases hpoint
    · simp only [List.mem_append, List.mem_cons] at h
      rcases h with hds | hpoint | hds
      · exact .inl (List.mem_of_mem_take hds)
      · exact .inr (.inr hpoint)
      · exact .inl (List.mem_of_mem_drop hds)

/-- One digit stands before the point. -/
def exponential (ds : List Char) (magnitude : Int) : List Char :=
  ds.take 1 ++ (if ds.length ≤ 1 then [] else '.' :: ds.drop 1) ++ 'e' ::
    (integer magnitude).toList

private def dropZeros (ds : List Char) : List Char :=
  (ds.reverse.dropWhile (· = '0')).reverse

theorem mem_of_mem_dropZeros {ds : List Char} {c : Char} (h : c ∈ dropZeros ds) : c ∈ ds :=
  List.mem_reverse.1 ((List.dropWhile_sublist _).subset (List.mem_reverse.1 h))

def positive (layout : Layout) (x : Scientific) : List Char :=
  let all := digits x.significand
  let magnitude := x.exponent + (all.length - 1)
  let ds := dropZeros all
  if layout.isPositional magnitude then layout.positional ds magnitude else exponential ds magnitude

def write (layout : Layout) (x : Float) : String :=
  match Double.ofFloat x with
  | .nan => "NaN"
  | .infinite negative => (if negative then "-" else "") ++ "inf"
  | .finite negative m e =>
    (if negative then "-" else "") ++
      String.ofList
        (if m = 0 then layout.positional ['0'] 0
        else layout.positive (Rounding.ofDouble m e).shortest)

/-- Numbers in values and in generated code: never an exponent, and no point in a whole number. -/
def plain : Layout := ⟨false, fun _ => true⟩

/-- Numbers in dumped trees: a point or an exponent shows that they are floating-point numbers. -/
def marked : Layout := ⟨true, fun magnitude => -4 ≤ magnitude && magnitude < 16⟩

end Layout

/-- Reads digits around a point, rounding to the nearest number. -/
def readFloat (cs : List Char) : Float :=
  let whole := cs.takeWhile (· != '.')
  let fraction := (cs.dropWhile (· != '.')).drop 1
  Float.ofScientific (value (whole ++ fraction)) true fraction.length

end Offside.Decimal
