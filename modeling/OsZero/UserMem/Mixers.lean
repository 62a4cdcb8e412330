import OsZero.Lib.Mixers
import OsZero.UserMem.Hash

set_option autoImplicit false

namespace OsZero.UserMem

open Mixers

def murmurHash3Mixer (u : BitVec 64) : BitVec 64 :=
  let u := u ^^^ (u >>> 33)
  let u := u * 0xff51afd7ed558ccd
  let u := u ^^^ (u >>> 33)
  let u := u * 0xc4ceb9fe1a85ec53
  u ^^^ (u >>> 33)

-- tmhash2 and tmunhash2 have one text but for the multiplier.
def tmmix (factor u : BitVec 32) : BitVec 32 :=
  let u := ((u >>> 16) ^^^ u) * factor
  let u := ((u >>> 16) ^^^ u) * factor
  (u >>> 16) ^^^ u

def tmhash2 (u : BitVec 32) : BitVec 32 := tmmix 0x45d9f3b u

def tmunhash2 (u : BitVec 32) : BitVec 32 := tmmix 0x119de1f3 u

theorem tmmix_rounds (factor u : BitVec 32) :
    tmmix factor u = xorshift 16 (xorshift 16 (xorshift 16 u * factor) * factor) := by
  simp only [tmmix, shift_xor]

theorem tmmix_undone (factor inverse u : BitVec 32) (inverts : factor * inverse = 1#32) : tmmix inverse (tmmix factor u) = u := by
  rw [tmmix_rounds, tmmix_rounds, xorshift_twice 16 (by decide), mul_cancel _ _ _ inverts, xorshift_twice 16 (by decide),
    mul_cancel _ _ _ inverts, xorshift_twice 16 (by decide)]

theorem tmhash64_injective : Function.Injective tmhash64 := by
  have first := mul_injective (0xbf58476d1ce4e5b9 : BitVec 64) 0x96de1b173f119089 (by decide)
  have second := mul_injective (0x94d049bb133111eb : BitVec 64) 0x319642b2d24d8ec3 (by decide)
  exact (xorshift_injective 31 (by decide)).comp (second.comp ((xorshift_injective 27 (by decide)).comp
    (first.comp (xorshift_injective 30 (by decide)))))

theorem murmurHash3Mixer_injective : Function.Injective murmurHash3Mixer := by
  have shift := xorshift_injective (w := 64) 33 (by decide)
  have first := mul_injective (0xff51afd7ed558ccd : BitVec 64) 0x4f74430c22a54005 (by decide)
  have second := mul_injective (0xc4ceb9fe1a85ec53 : BitVec 64) 0x9cb4b2f8129337db (by decide)
  exact shift.comp (second.comp (shift.comp (first.comp shift)))

theorem mixers_lose_nothing (u : BitVec 32) :
    tmunhash2 (tmhash2 u) = u ∧ tmhash2 (tmunhash2 u) = u ∧ Function.Injective tmhash64 ∧ Function.Injective murmurHash3Mixer := by
  refine ⟨?_, ?_, tmhash64_injective, murmurHash3Mixer_injective⟩
  · exact tmmix_undone 0x45d9f3b 0x119de1f3 u (by decide)
  · exact tmmix_undone 0x119de1f3 0x45d9f3b u (by decide)

end OsZero.UserMem
