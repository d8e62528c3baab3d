import BasisFlow.Amplitude

namespace BasisFlow

/-- A complex number in floating point. -/
structure Floating where
  re : Float
  im : Float

namespace Floating

instance : Zero Floating := ⟨⟨0.0, 0.0⟩⟩

instance : One Floating := ⟨⟨1.0, 0.0⟩⟩

instance : Add Floating := ⟨fun a b => ⟨a.re + b.re, a.im + b.im⟩⟩

instance : Sub Floating := ⟨fun a b => ⟨a.re - b.re, a.im - b.im⟩⟩

instance : Neg Floating := ⟨fun a => ⟨-a.re, -a.im⟩⟩

instance : Mul Floating :=
  ⟨fun a b => ⟨a.re * b.re - a.im * b.im, a.re * b.im + a.im * b.re⟩⟩

def ofReal (x : Float) : Floating :=
  ⟨x, 0.0⟩

/-- The number of modulus one at an angle in radians. -/
def unit (radians : Float) : Floating :=
  ⟨radians.cos, radians.sin⟩

def half (θ : Angle) : Float :=
  θ.radians / 2.0

def normSq (a : Floating) : Float :=
  a.re * a.re + a.im * a.im

instance : Amplitude Floating where
  i := ⟨0.0, 1.0⟩
  conj a := ⟨a.re, -a.im⟩
  rootHalf := ofReal 0.7071067811865476
  cis θ := unit θ.radians
  cisHalf θ := unit (half θ)
  cosHalf θ := ofReal (half θ).cos
  sinHalf θ := ofReal (half θ).sin

end Floating

end BasisFlow
