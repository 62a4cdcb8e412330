import OsZero.UserMem.Cells

set_option autoImplicit false

namespace OsZero.UserMem

def memslots : Memtype → Nat
  | .small => 16
  | .page => 128
  | .big => 64

-- What _malloc passes to memgetblk: none where it returns NULL before, because there is no memtls.
def mallocreq (tls : Bool) (size align : Nat) : Option (Memtype × Nat) :=
  if tls then some (memtype (memasz size align), memslot (memasz size align)) else none

def memalignreq (tls : Bool) (align size : Nat) : Option (Memtype × Nat) :=
  if powerof2 (BitVec.ofNat 64 align) then mallocreq tls size align else none

def callocreq (tls : Bool) (n size : Nat) : Option (Memtype × Nat) :=
  let sz := n * size % 18446744073709551616
  if sz = 0 then mallocreq tls (sz + 1) memminalign
  else if sz < n * size % 18446744073709551616 then none
  else mallocreq tls sz memminalign

-- The slot is in the table of its class, and the block has room for what is needed.
def Roomed (need : Nat) (request : Option (Memtype × Nat)) : Prop :=
  ∀ class_ slot, request = some (class_, slot) → slot < memslots class_ ∧ need ≤ membufblksize class_ slot

-- The highest count bits of a word are set.
def Topset (count : Nat) (v : BitVec 64) : Prop := ∀ i, 64 - count ≤ i → i < 64 → v.getLsbD i = true

theorem topset_step (count : Nat) (v : BitVec 64) (some_set : 0 < count) (top : Topset count v) : Topset (2 * count) (v ||| v.sshiftRight count) := by
  intro i high low
  rw [BitVec.getLsbD_or, Bool.or_eq_true]
  by_cases old : 64 - count ≤ i
  · exact Or.inl (top i old low)
  · refine Or.inr ?_
    rw [BitVec.getLsbD_sshiftRight, if_pos (by omega), top _ (by omega) (by omega)]
    simp only [Bool.and_true, Bool.not_eq_true', decide_eq_false_iff_not]
    omega

theorem topset_ones (v : BitVec 64) (top : Topset 64 v) : v + 1 = 0 := by
  have ones : v = BitVec.allOnes 64 := by
    apply BitVec.eq_of_getLsbD_eq
    intro i low
    rw [top i (by omega) low, BitVec.getLsbD_allOnes, decide_eq_true low]
  rw [ones]
  rfl

-- Past 2^63 the word is negative, and rounding it up carries out of it.
theorem ceilpow2_negative (u : BitVec 64) (above : 9223372036854775808 < u.toNat) : ceilpow2_64 u = 0 := by
  have below := u.isLt
  have other : powerof2 u = false := by
    rw [Bool.eq_false_iff]
    intro power
    have bits := congrArg BitVec.toNat (beq_iff_eq.mp power)
    rw [BitVec.toNat_and, BitVec.toNat_sub_of_le (by simp [BitVec.le_def]; omega)] at bits
    have exact := and_pred_zero u.toNat (by omega) bits
    have top : Nat.log2 u.toNat = 63 := (Nat.log2_eq_iff (by omega)).mpr ⟨by omega, by omega⟩
    rw [top] at exact
    omega
  have first : Topset 1 (u - 1) := by
    intro i high low
    have place : i = 64 - 1 := by omega
    have less : (u - 1).toNat = u.toNat - 1 := BitVec.toNat_sub_of_le (by simp [BitVec.le_def]; omega)
    rw [place, ← BitVec.msb_eq_getLsbD_last, BitVec.msb_eq_decide, less, decide_eq_true_eq]
    exact Nat.le_sub_one_of_lt above
  unfold ceilpow2_64
  rw [other]
  simp only [Bool.false_eq_true, if_false]
  have all := topset_step 32 _ (by decide) (topset_step 16 _ (by decide) (topset_step 8 _ (by decide)
    (topset_step 4 _ (by decide) (topset_step 2 _ (by decide) (topset_step 1 _ (by decide) first)))))
  exact topset_ones _ all

theorem slot_above (asz : Nat) (above : 9223372036854775808 < asz) (word : asz < 18446744073709551616) :
    memtype asz = .big ∧ memslot asz = 64 := by
  have type : memtype asz = .big := by rw [memtype, if_neg (by omega), if_neg (by omega)]
  have value : (BitVec.ofNat 64 asz).toNat = asz := Nat.mod_eq_of_lt word
  rw [memslot, type, if_pos (by decide), memcalcslot, ceilpow2_negative _ (by rw [value]; exact above)]
  exact ⟨rfl, by decide⟩

theorem blksize_word (class_ : Memtype) (slot : Nat) (low : slot < memslots class_) : membufblksize class_ slot < 18446744073709551616 := by
  cases class_ with
  | small => exact Nat.mod_lt _ (by decide)
  | page =>
    rw [memslots] at low
    change 4096 + 4096 * slot < _
    omega
  | big => exact Nat.mod_lt _ (by decide)

theorem slots_inside (class_ : Memtype) (slot : Nat) (slots : Slots class_ slot) : slot < memslots class_ := by
  cases class_ with
  | small => exact Nat.lt_of_le_of_lt slots.2 (by decide)
  | page => exact Nat.lt_of_le_of_lt slots (by decide)
  | big => exact Nat.lt_of_le_of_lt slots.2 (by decide)

-- What is needed is brought up to least bytes at the least, and asz has a word of it.
theorem mallocreq_iff (tls : Bool) (size align need least : Nat) (asz : memasz size align = least % 18446744073709551616)
    (enough : need ≤ least) (room : 16 ≤ least) (wraps : 18446744073709551616 ≤ least → 18446744073709551616 ≤ need) :
    Roomed need (mallocreq tls size align) ↔ tls = false ∨ least ≤ 9223372036854775808 := by
  cases tls with
  | false => exact iff_of_true (fun _ _ made => by contradiction) (Or.inl rfl)
  | true =>
    have made : mallocreq true size align = some (memtype (memasz size align), memslot (memasz size align)) := rfl
    rw [made, Bool.true_eq_false, false_or]
    constructor
    · intro roomed
      obtain ⟨inside, holds⟩ := roomed _ _ rfl
      by_contra above
      have word := blksize_word _ _ inside
      have fits : least < 18446744073709551616 := Nat.lt_of_not_le fun past => by
        have much := wraps past
        omega
      rw [asz, Nat.mod_eq_of_lt fits] at inside
      obtain ⟨type, slot⟩ := slot_above least (Nat.lt_of_not_le above) fits
      rw [type, slot] at inside
      exact absurd inside (by decide)
    · intro bound class_ slot same
      rw [asz, Nat.mod_eq_of_lt (by omega)] at same
      cases same
      obtain ⟨slots, holds⟩ := asz_slots least room bound
      exact ⟨slots_inside _ _ slots, Nat.le_trans enough holds⟩

theorem memasz_small (size align : Nat) (page : max align memminalign ≤ 4096) : memasz size align = max (max align memminalign) (max size memminblk) :=
  if_pos page

theorem memasz_large (size align : Nat) (large : ¬ max align memminalign ≤ 4096) :
    memasz size align = (max size memminblk + max align memminalign - 1) % 18446744073709551616 := if_neg large

theorem malloc_iff (tls : Bool) (size : Nat) (word : size < 18446744073709551616) :
    Roomed size (mallocreq tls size memminalign) ↔ tls = false ∨ size ≤ 9223372036854775808 := by
  have asz : memasz size memminalign = max 16 size := by
    rw [memasz_small _ _ (by decide)]
    unfold memminalign memminblk
    omega
  rw [mallocreq_iff tls size memminalign size (max 16 size) (by rw [asz]; omega) (by omega) (by omega) (by omega)]
  exact or_congr_right (by omega)

theorem powerof2_shift : ∀ k < 64, powerof2 (BitVec.ofNat 64 (2 ^ k)) = true := by decide +kernel

theorem memalign_iff (tls : Bool) (k size : Nat) (low : k < 64) (word : size < 18446744073709551616) :
    Roomed (if 2 ^ k ≤ 4096 then size else size + (2 ^ k - 1)) (memalignreq tls (2 ^ k) size) ↔
      tls = false ∨ (if 2 ^ k ≤ 4096 then size else max size 16 + (2 ^ k - 1)) ≤ 9223372036854775808 := by
  have most : 2 ^ k ≤ 2 ^ 63 := Nat.pow_le_pow_right (by decide) (by omega)
  have positive : 0 < 2 ^ k := Nat.two_pow_pos k
  rw [memalignreq, if_pos (powerof2_shift k low)]
  generalize 2 ^ k = align at *
  by_cases page : align ≤ 4096
  · have asz := memasz_small size align (by unfold memminalign; omega)
    unfold memminalign memminblk at asz
    rw [if_pos page, if_pos page,
      mallocreq_iff tls size align size (max (max align 16) (max size 16)) (by rw [asz]; omega) (by omega) (by omega) (by omega)]
    exact or_congr_right (by omega)
  · have asz := memasz_large size align (by unfold memminalign; omega)
    unfold memminalign memminblk at asz
    rw [if_neg page, if_neg page,
      mallocreq_iff tls size align (size + (align - 1)) (max size 16 + (align - 1)) (by rw [asz]; congr 1; omega) (by omega) (by omega) (by omega)]

-- The product that is compared with has wrapped as well, so no product is refused.
theorem calloc_iff (tls : Bool) (n size : Nat) : Roomed (n * size) (callocreq tls n size) ↔ tls = false ∨ n * size ≤ 9223372036854775808 := by
  rw [callocreq]
  generalize n * size = need
  have asz (sz : Nat) : memasz sz memminalign = max 16 sz := by
    rw [memasz_small _ _ (by decide)]
    unfold memminalign memminblk
    omega
  rw [if_neg (Nat.lt_irrefl (need % 18446744073709551616))]
  split_ifs with empty
  · rw [mallocreq_iff tls _ memminalign need (need + 16) (by rw [asz]; omega) (by omega) (by omega) (by omega)]
    exact or_congr_right (by omega)
  · rw [mallocreq_iff tls _ memminalign need (need + (16 - need % 18446744073709551616)) (by rw [asz]; omega) (by omega) (by omega) (by omega)]
    exact or_congr_right (by omega)

-- A request of up to 2^63 bytes, brought up to the least block and with the slack of its alignment, gets a slot with room for it; no other does.
theorem requests_roomed_iff (tls : Bool) (n size : BitVec 64) (k : Fin 64) :
    (Roomed size.toNat (mallocreq tls size.toNat memminalign) ↔ tls = false ∨ size.toNat ≤ 9223372036854775808) ∧
      (Roomed (if 2 ^ k.val ≤ 4096 then size.toNat else size.toNat + (2 ^ k.val - 1)) (memalignreq tls (2 ^ k.val) size.toNat) ↔
        tls = false ∨ (if 2 ^ k.val ≤ 4096 then size.toNat else max size.toNat 16 + (2 ^ k.val - 1)) ≤ 9223372036854775808) ∧
      (Roomed (n.toNat * size.toNat) (callocreq tls n.toNat size.toNat) ↔ tls = false ∨ n.toNat * size.toNat ≤ 9223372036854775808) :=
  ⟨malloc_iff tls _ size.isLt, memalign_iff tls k.val _ k.isLt size.isLt, calloc_iff tls _ _⟩

-- Two items of 2^63 + 8 bytes are given a block of 16.
theorem product_wraps : callocreq true 2 9223372036854775816 = some (.small, 4) ∧
    ¬ Roomed (2 * 9223372036854775816) (callocreq true 2 9223372036854775816) := by
  have given : callocreq true 2 9223372036854775816 = some (.small, 4) := by decide
  refine ⟨given, fun roomed => ?_⟩
  exact absurd (roomed .small 4 given).2 (by decide)

end OsZero.UserMem
