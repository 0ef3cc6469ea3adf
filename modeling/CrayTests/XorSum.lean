import Mathlib.Tactic
import Mathlib.Algebra.BigOperators.Group.Finset.Basic

/-!
# Words added by exclusive or

`Xored w` is the type of words of `w` bits with exclusive or as addition, so that the library of
finite sums applies to xors over any index set.
-/

namespace XorSum

def Xored (w : ℕ) : Type := BitVec w

def xored {w : ℕ} (v : BitVec w) : Xored w := v

def unxored {w : ℕ} (x : Xored w) : BitVec w := x

variable {w : ℕ}

instance : Add (Xored w) := ⟨BitVec.xor⟩

instance : Zero (Xored w) := ⟨BitVec.zero w⟩

instance : Neg (Xored w) := ⟨id⟩

instance : AddCommGroup (Xored w) where
  add_assoc := BitVec.xor_assoc
  zero_add _ := BitVec.zero_xor
  add_zero _ := BitVec.xor_zero
  add_comm := BitVec.xor_comm
  neg_add_cancel _ := BitVec.xor_self
  nsmul := nsmulRec
  zsmul := zsmulRec

instance : DecidableEq (Xored w) := inferInstanceAs (DecidableEq (BitVec w))

theorem xored_xor (a b : BitVec w) : xored (a ^^^ b) = xored a + xored b := rfl

@[simp] theorem xored_zero : xored (0 : BitVec w) = 0 := rfl

theorem xored_inj {a b : BitVec w} : xored a = xored b ↔ a = b := Iff.rfl

@[simp] theorem xored_unxored (x : Xored w) : xored (unxored x) = x := rfl

theorem add_self (x : Xored w) : x + x = 0 := BitVec.xor_self

end XorSum
