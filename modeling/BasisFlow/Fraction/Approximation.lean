import BasisFlow.Fraction

namespace BasisFlow.Fraction

/-- The last two convergents of a continued fraction. -/
structure Convergents where
  num₀ : Int
  den₀ : Int
  num : Int
  den : Int

namespace Convergents

/-- The two formal convergents `0/1` and `1/0` before the first term. -/
def start : Convergents :=
  ⟨0, 1, 1, 0⟩

/-- Whether the convergent after the term `a` still consists of words. -/
def hasRoom (c : Convergents) (a : Int) : Bool :=
  a == 0 || (c.num ≤ Word.greatest / a && c.den ≤ Word.greatest / a &&
    a * c.num ≤ Word.greatest - c.num₀ && a * c.den ≤ Word.greatest - c.den₀)

def next (c : Convergents) (a : Int) : Convergents :=
  let n := a * c.num + c.num₀
  let d := a * c.den + c.den₀
  let g : Int := Int.gcd n d
  if g = 0 then ⟨c.num, c.den, n, d⟩ else ⟨c.num, c.den, n / g, d / g⟩

/-- Whether the unreduced convergent after the term `a` is the target up to the last bits. -/
def hits (c : Convergents) (a : Int) (target : Float) : Bool :=
  let n := Word.toFloat (a * c.num + c.num₀)
  let d := Word.toFloat (a * c.den + c.den₀)
  (n / d - target).abs < 1e-19

end Convergents

/-- The number just above every signed word. -/
def wordBound : Float :=
  9223372036854775808.0

/-- Expands `rest` into at most `terms` further terms. The expansion ends early when a term or a
convergent is no word, when the target is reached, or when no fractional part is left. -/
def expand (target : Float) : Nat → Float → Convergents → Convergents
  | 0, _, c => c
  | terms + 1, rest, c =>
    if rest < wordBound then
      let a := rest.toInt64.toInt
      let remainder := rest - Word.toFloat a
      if c.hasRoom a then
        if c.hits a target || remainder < 1.0 / wordBound then c.next a
        else expand target terms (1.0 / remainder) (c.next a)
      else c
    else c

/-- The most terms of a continued fraction that are looked at. -/
def maxTerms : Nat := 30

/-- The fraction of words that a floating-point number stands for, to within its precision. -/
def ofFloat (x : Float) : Except Fault Fraction :=
  if x.isNaN || wordBound < x.abs then .error .unrepresentable
  else
    let c := expand x.abs maxTerms x.abs .start
    if c.den = 0 then .error .unrepresentable
    else do
      let f ← make c.num c.den
      if x.toBits >>> 63 = 1 then f.neg else return f

end BasisFlow.Fraction
