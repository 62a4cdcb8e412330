import OsZero.KernMem.Page

set_option autoImplicit false

namespace OsZero.Dma

open Runs

def dmanochan : Int := 0xff

structure Dmadrv where
  lk : Bool
  chanbits : BitVec 32

def fmtxlk (drv : Dmadrv) : Option Dmadrv := if drv.lk then none else some { drv with lk := true }

def fmtxunlk (drv : Dmadrv) : Dmadrv := { drv with lk := false }

-- The processor takes the count of a shift modulo 32.
def chanbit (chan : Int) : BitVec 32 := (1 : BitVec 32) <<< (chan % 32).toNat

def full (is16bit : Bool) (bits : BitVec 32) : Bool := if is16bit then bits &&& 0xf0 == 0xf0 else bits &&& 0x0f == 0x0f

def dmagetchan (is16bit : Bool) (drv : Dmadrv) : Option (Dmadrv × Int) :=
  (fmtxlk drv).map fun drv =>
    if full is16bit drv.chanbits then (fmtxunlk drv, dmanochan)
    else
      let retval := 31 - (Page.lzerol drv.chanbits : Int)
      (fmtxunlk { drv with chanbits := drv.chanbits ||| chanbit retval }, retval)

def gtepow2 (u p2 : BitVec 32) : Bool := u &&& -p2 != 0

def dmatakechan (chan : BitVec 32) (drv : Dmadrv) : Option (Dmadrv × Int) :=
  if gtepow2 chan 8 then some (drv, dmanochan)
  else (fmtxlk drv).map fun drv =>
    if drv.chanbits &&& chanbit chan.toNat = 0 then
      (fmtxunlk { drv with chanbits := drv.chanbits ||| chanbit chan.toNat }, chan.toNat)
    else (fmtxunlk drv, dmanochan)

-- A channel that is out of range is reported, and its bit cleared all the same.
def dmarelchan (chan : BitVec 32) (drv : Dmadrv) : Option Dmadrv :=
  (fmtxlk drv).map fun drv => fmtxunlk { drv with chanbits := drv.chanbits &&& ~~~chanbit chan.toNat }

inductive Call where
  | getchan (is16bit : Bool)
  | takechan (chan : BitVec 32)
  | relchan (chan : BitVec 32)

-- held lists the channels that were handed out, to whichever caller, and are not given back.
structure Channels where
  drv : Dmadrv
  held : List Int

def handed (channels : Channels) (got : Dmadrv × Int) : Channels := ⟨got.1, if got.2 = dmanochan then channels.held else got.2 :: channels.held⟩

def step (channels : Channels) : Call → Option Channels
  | .getchan is16bit => (dmagetchan is16bit channels.drv).map (handed channels)
  | .takechan chan => (dmatakechan chan channels.drv).map (handed channels)
  | .relchan chan => (dmarelchan chan channels.drv).map fun drv => ⟨drv, channels.held.erase chan.toNat⟩

def start : Channels := ⟨⟨false, 0⟩, []⟩

def Legal (channels : Channels) : Call → Prop
  | .relchan chan => (chan.toNat : Int) ∈ channels.held
  | _ => True

-- No channel has two users, and each is one of the eight.
def Good (channels : Channels) : Prop := channels.held.Nodup ∧ ∀ chan ∈ channels.held, 0 ≤ chan ∧ chan < 8

def Half (is16bit : Bool) (chan : Nat) : Prop := if is16bit then 4 ≤ chan ∧ chan < 8 else chan < 4

def Refused (channels : Channels) : Call → Prop
  | .getchan is16bit => ∀ chan : Nat, Half is16bit chan → (chan : Int) ∈ channels.held
  | _ => True

-- A call that is not refused is given the highest channel in use, or -1 where none is.
def Gives (channels : Channels) : Prop :=
  ∀ is16bit, ¬ Refused channels (.getchan is16bit) → ∃ drv chan, dmagetchan is16bit channels.drv = some (drv, chan) ∧
    (channels.held = [] ∧ chan = -1 ∨ chan ∈ channels.held ∧ ∀ other ∈ channels.held, other ≤ chan)

structure Kept (channels : Channels) : Prop where
  good : Good channels
  free : channels.drv.lk = false
  bits : ∀ i, channels.drv.chanbits.getLsbD i = true ↔ (i : Int) ∈ channels.held

theorem chanbit_bit (chan : Int) (i : Nat) (low : 0 ≤ chan) (high : chan < 32) : (chanbit chan).getLsbD i = true ↔ (i : Int) = chan := by
  obtain ⟨n, rfl⟩ := Int.eq_ofNat_of_zero_le low
  have small : ((n : Int) % 32).toNat = n := by omega
  rw [chanbit, small, show (1 : BitVec 32) <<< n = BitVec.twoPow 32 n from (BitVec.twoPow_eq 32 n).symm, BitVec.getLsbD_twoPow]
  simp
  omega

-- The count of leading zeroes gives the highest bit that is set.
theorem highest_set (bits : BitVec 32) (some_set : bits ≠ 0) :
    ∃ i : Nat, (31 - (Page.lzerol bits : Int)) = (i : Int) ∧ bits.getLsbD i = true ∧ ∀ other, bits.getLsbD other = true → other ≤ i := by
  have nonzero : bits.toNat ≠ 0 := fun none => some_set (BitVec.eq_of_toNat_eq none)
  have below : Nat.log2 bits.toNat < 32 := (Nat.log2_lt nonzero).mpr bits.isLt
  refine ⟨Nat.log2 bits.toNat, ?_, Nat.testBit_log2 nonzero, fun other set => (Nat.le_log2 nonzero).mpr (Nat.ge_two_pow_of_testBit set)⟩
  rw [Page.lzerol, if_neg some_set, ← Nat.log2_eq_log_two]
  omega

theorem covers_iff (bits mask : BitVec 32) : bits &&& mask = mask ↔ ∀ i, mask.getLsbD i = true → bits.getLsbD i = true := by
  constructor
  · intro same i set
    have bit := congrArg (fun word : BitVec 32 => word.getLsbD i) same
    simp only [BitVec.getLsbD_and, set, Bool.and_true] at bit
    exact bit
  · intro all
    apply BitVec.eq_of_getLsbD_eq
    intro i small
    rw [BitVec.getLsbD_and]
    cases set : mask.getLsbD i with
    | false => rw [Bool.and_false]
    | true => rw [all i set, Bool.and_true]

theorem half_bits : ∀ i < 32, ((0xf0 : BitVec 32).getLsbD i = true ↔ Half true i) ∧ ((0x0f : BitVec 32).getLsbD i = true ↔ Half false i) := by
  simp only [Half, if_pos, Bool.false_eq_true, if_false]
  decide

theorem full_iff (is16bit : Bool) (bits : BitVec 32) :
    full is16bit bits = true ↔ ∀ i : Nat, Half is16bit i → bits.getLsbD i = true := by
  have general : ∀ mask : BitVec 32, (∀ i < 32, mask.getLsbD i = true ↔ Half is16bit i) →
      (bits &&& mask = mask ↔ ∀ i : Nat, Half is16bit i → bits.getLsbD i = true) := by
    intro mask same
    rw [covers_iff]
    refine forall_congr' fun i => ⟨fun all half => all ((same i ?_).mpr half), fun all set => all ((same i (BitVec.lt_of_getLsbD set)).mp set)⟩
    cases is16bit <;> simp [Half] at half <;> omega
  cases is16bit with
  | true =>
      rw [full, if_pos rfl, beq_iff_eq]
      exact general 0xf0 fun i small => (half_bits i small).1
  | false =>
      rw [full, if_neg Bool.false_ne_true, beq_iff_eq]
      exact general 0x0f fun i small => (half_bits i small).2

theorem start_kept : Kept start := by
  refine ⟨⟨List.nodup_nil, fun chan member => absurd member List.not_mem_nil⟩, rfl, fun i => ?_⟩
  simp [start]

-- A channel that was not in use comes into use.
theorem handed_kept (channels : Channels) (chan : Nat) (kept : Kept channels) (small : chan < 8) (unused : (chan : Int) ∉ channels.held) :
    Kept ⟨⟨false, channels.drv.chanbits ||| chanbit chan⟩, chan :: channels.held⟩ := by
  obtain ⟨⟨distinct, range⟩, free, bits⟩ := kept
  refine ⟨⟨List.nodup_cons.mpr ⟨unused, distinct⟩, ?_⟩, rfl, fun i => ?_⟩
  · intro other member
    rcases List.mem_cons.mp member with rfl | old
    · omega
    · exact range other old
  · rw [BitVec.getLsbD_or, Bool.or_eq_true, bits, chanbit_bit chan i (by omega) (by omega), List.mem_cons]
    exact or_comm

theorem full_refused (channels : Channels) (is16bit : Bool) (kept : Kept channels) :
    full is16bit channels.drv.chanbits = true ↔ Refused channels (.getchan is16bit) := by
  rw [full_iff]
  exact forall_congr' fun i => imp_congr_right fun _ => kept.bits i

theorem kept_lock (channels : Channels) (kept : Kept channels) : fmtxlk channels.drv = some { channels.drv with lk := true } := by
  rw [fmtxlk, kept.free, if_neg Bool.false_ne_true]

-- With no bit set the count is 32, and the channel -1.
theorem kept_gives (channels : Channels) (kept : Kept channels) : Gives channels := by
  intro is16bit granted
  have open_half : ¬ full is16bit channels.drv.chanbits = true := fun whole => granted ((full_refused channels is16bit kept).mp whole)
  refine ⟨_, _, by rw [dmagetchan, kept_lock channels kept, Option.map_some, if_neg open_half], ?_⟩
  by_cases idle : channels.drv.chanbits = 0
  · refine Or.inl ⟨List.eq_nil_iff_forall_not_mem.mpr fun chan member => ?_, by rw [idle]; decide⟩
    obtain ⟨i, rfl⟩ := Int.eq_ofNat_of_zero_le (kept.good.2 chan member).1
    have set := (kept.bits i).mpr member
    rw [idle] at set
    simp at set
  · obtain ⟨i, value, set, highest⟩ := highest_set _ idle
    rw [value]
    refine Or.inr ⟨(kept.bits i).mp set, fun other member => ?_⟩
    obtain ⟨j, rfl⟩ := Int.eq_ofNat_of_zero_le (kept.good.2 other member).1
    exact Int.ofNat_le.mpr (highest j ((kept.bits j).mpr member))

theorem getchan_step (channels : Channels) (is16bit : Bool) (kept : Kept channels) :
    (Refused channels (.getchan is16bit) ∧ step channels (.getchan is16bit) = some channels) ∨
      (¬ Refused channels (.getchan is16bit) ∧ ∃ next, step channels (.getchan is16bit) = some next ∧ ¬ Good next) := by
  by_cases refused : Refused channels (.getchan is16bit)
  · refine Or.inl ⟨refused, ?_⟩
    rw [step, dmagetchan, kept_lock channels kept, Option.map_some, if_pos ((full_refused channels is16bit kept).mpr refused), Option.map_some,
      handed, if_pos rfl, fmtxunlk, ← kept.free]
  · refine Or.inr ⟨refused, ?_⟩
    obtain ⟨drv, chan, given, value⟩ := kept_gives channels kept is16bit refused
    refine ⟨handed channels (drv, chan), by rw [step, given, Option.map_some], ?_⟩
    rw [handed]
    rcases value with ⟨-, rfl⟩ | ⟨used, -⟩
    · exact fun good => absurd (good.2 (-1) (List.mem_cons_self ..)).1 (by decide)
    · have small := (kept.good.2 chan used).2
      rw [if_neg (by unfold dmanochan; dsimp only; omega)]
      exact fun good => (List.nodup_cons.mp good.1).1 used

theorem gtepow2_eight (chan : BitVec 32) : gtepow2 chan 8 = false ↔ chan.toNat < 8 := by
  have mask : ∀ i < 32, (-8 : BitVec 32).getLsbD i = decide (3 ≤ i) := by decide
  rw [gtepow2, bne_eq_false_iff_eq]
  constructor
  · intro clear
    have same : chan.toNat % 2 ^ 3 = chan.toNat := by
      apply Nat.eq_of_testBit_eq
      intro i
      rw [Nat.testBit_mod_two_pow]
      by_cases low : i < 3
      · rw [decide_eq_true low, Bool.true_and]
      · rw [decide_eq_false low, Bool.false_and]
        have bit := congrArg (fun word : BitVec 32 => word.getLsbD i) clear
        by_cases small : i < 32
        · simp only [BitVec.getLsbD_and, mask i small, decide_eq_true (Nat.le_of_not_lt low), Bool.and_true] at bit
          exact (bit.trans (by simp)).symm
        · exact (BitVec.getLsbD_of_ge chan i (by omega)).symm
    omega
  · intro small
    apply BitVec.eq_of_getLsbD_eq
    intro i below
    rw [BitVec.getLsbD_and, mask i below]
    by_cases low : 3 ≤ i
    · have clear : chan.getLsbD i = false :=
        Nat.testBit_lt_two_pow (Nat.lt_of_lt_of_le small (Nat.pow_le_pow_right (by decide) low : 2 ^ 3 ≤ 2 ^ i))
      rw [clear, Bool.false_and]
      simp
    · rw [decide_eq_false low, Bool.and_false]
      simp

theorem takechan_kept (channels : Channels) (chan : BitVec 32) (kept : Kept channels) :
    ∃ next, step channels (.takechan chan) = some next ∧ Kept next := by
  have lock := kept_lock channels kept
  have same : Kept (handed channels (fmtxunlk { channels.drv with lk := true }, dmanochan)) := by
    rw [handed, if_pos rfl, fmtxunlk]
    exact ⟨kept.good, rfl, kept.bits⟩
  cases high : gtepow2 chan 8 with
  | true =>
      refine ⟨channels, ?_, kept⟩
      rw [step, dmatakechan, if_pos high, Option.map_some, handed, if_pos rfl]
  | false =>
      have small := (gtepow2_eight chan).mp high
      have bit := chanbit_bit chan.toNat chan.toNat (by omega) (by omega)
      by_cases clear : channels.drv.chanbits &&& chanbit chan.toNat = 0
      · refine ⟨_, by rw [step, dmatakechan, if_neg (by rw [high]; decide), lock, Option.map_some, if_pos clear, Option.map_some], ?_⟩
        have unused : (chan.toNat : Int) ∉ channels.held := by
          intro member
          have word := congrArg (fun word : BitVec 32 => word.getLsbD chan.toNat) clear
          simp only [BitVec.getLsbD_and, (kept.bits chan.toNat).mpr member, bit.mpr rfl] at word
          simp at word
        rw [handed, if_neg (by unfold dmanochan; dsimp only; omega)]
        exact handed_kept channels chan.toNat kept small unused
      · exact ⟨_, by rw [step, dmatakechan, if_neg (by rw [high]; decide), lock, Option.map_some, if_neg clear, Option.map_some], same⟩

theorem relchan_kept (channels : Channels) (chan : BitVec 32) (kept : Kept channels) (legal : (chan.toNat : Int) ∈ channels.held) :
    ∃ next, step channels (.relchan chan) = some next ∧ Kept next := by
  have lock := kept_lock channels kept
  obtain ⟨⟨distinct, range⟩, free, bits⟩ := kept
  have small := (range _ legal).2
  refine ⟨_, by rw [step, dmarelchan, lock, Option.map_some, Option.map_some], ⟨distinct.erase _, ?_⟩, rfl, ?_⟩
  · exact fun other member => range other (List.mem_of_mem_erase member)
  · intro i
    have bit := chanbit_bit chan.toNat i (by omega) (by omega)
    rw [fmtxunlk]
    dsimp only
    rw [BitVec.getLsbD_and, Bool.and_eq_true, bits, distinct.mem_erase_iff, and_comm]
    refine and_congr_left fun member => ?_
    have below := (range _ member).2
    rw [BitVec.getLsbD_not, decide_eq_true (by omega : i < 32), Bool.true_and, Bool.not_eq_true', Bool.eq_false_iff, Ne, bit]

theorem step_kept (channels : Channels) (call : Call) (kept : Kept channels) (legal : Legal channels call) (refused : Refused channels call) :
    True ∧ ∃ next, step channels call = some next ∧ Kept next := by
  refine ⟨trivial, ?_⟩
  cases call with
  | getchan is16bit =>
      rcases getchan_step channels is16bit kept with ⟨-, same⟩ | ⟨granted, -⟩
      · exact ⟨channels, same, kept⟩
      · exact absurd refused granted
  | takechan chan => exact takechan_kept channels chan kept
  | relchan chan => exact relchan_kept channels chan kept legal

-- Whoever asks for any channel is given one in use, or none of the eight: the
-- channels have one user each only in the runs where such calls are refused.
theorem channels_exclusive_iff (calls : List Call) (legal : Meets step Legal start calls) :
    (Holds step Good (fun _ _ => True) start calls ↔ Meets step Refused start calls) ∧
      (Meets step Refused start calls → Holds step Gives (fun _ _ => True) start calls) := by
  constructor
  · refine holds_iff_invariant step Kept Good _ Refused Legal (fun _ kept => kept.good) step_kept ?_ start calls start_kept legal
    intro channels call next kept _ _ taken good
    cases call with
    | getchan is16bit =>
        rcases getchan_step channels is16bit kept with ⟨refused, -⟩ | ⟨-, other, same, bad⟩
        · exact refused
        · rw [same] at taken
          cases taken
          exact absurd good bad
    | takechan chan => trivial
    | relchan chan => trivial
  · intro refused
    have both := meets_and step Legal Refused start calls legal refused
    have stays := invariant_holds step Kept (fun _ _ => True) _ (fun channels call kept fits => step_kept channels call kept fits.1 fits.2)
      start calls start_kept both
    exact holds_mono step Kept Gives _ kept_gives start calls stays

-- Channel 2 is asked for while 0 and 2 are in use, and given again.
theorem channels_exclusive_iff_taken :
    ¬ Holds step Good (fun _ _ => True) start [.takechan 0, .takechan 2, .getchan false] ∧
      Holds step Gives (fun _ _ => True) start [.takechan 0, .takechan 2] := by
  have first : step start (.takechan 0) = some ⟨⟨false, 1⟩, [0]⟩ := rfl
  have second : step ⟨⟨false, 1⟩, [0]⟩ (.takechan 2) = some ⟨⟨false, 5⟩, [2, 0]⟩ := rfl
  constructor
  · intro holds
    have legal : Meets step Legal start [.takechan 0, .takechan 2, .getchan false] :=
      ⟨trivial, fun _ _ => ⟨trivial, fun _ _ => ⟨trivial, fun _ _ => trivial⟩⟩⟩
    have refused := (channels_exclusive_iff [.takechan 0, .takechan 2, .getchan false] legal).1.mp holds
    have member : (1 : Int) ∈ [(2 : Int), 0] := ((refused.2 _ first).2 _ second).1 1 (by decide : (1 : Nat) < 4)
    exact absurd member (by decide)
  · have legal : Meets step Legal start [.takechan 0, .takechan 2] := ⟨trivial, fun _ _ => ⟨trivial, fun _ _ => trivial⟩⟩
    exact (channels_exclusive_iff [.takechan 0, .takechan 2] legal).2 ⟨trivial, fun _ _ => ⟨trivial, fun _ _ => trivial⟩⟩

end OsZero.Dma
