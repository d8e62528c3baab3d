import BasisFlow.Angle

namespace BasisFlow

/-- What the amplitudes of a quantum state need beyond addition and multiplication. Gates and
registers are written against this interface, so that they can be run on floating-point numbers
and reasoned about over the complex numbers. -/
class Amplitude (K : Type) where
  /-- The imaginary unit. -/
  i : K
  /-- The complex conjugate. -/
  conj : K → K
  /-- One over the square root of two. -/
  rootHalf : K
  /-- The number of modulus one at an angle. -/
  cis : Angle → K
  /-- The number of modulus one at half an angle. -/
  cisHalf : Angle → K
  /-- The cosine of half an angle. -/
  cosHalf : Angle → K
  /-- The sine of half an angle. -/
  sinHalf : Angle → K

end BasisFlow
