import OsZero.Arith.Fastidiv
import OsZero.Sched.Ready

set_option autoImplicit false

namespace OsZero.Sched

open Arith

def schedbatch : Int := 5

def schednicetab (i : Nat) : Int :=
  ([0, 0, 0, 0, 0, 0, 0, 0, 0,
    0, 0, 0, -64, -60, -57, -54, -51,
    -47, -44, -41, -38, -35, -31, -28, -25,
    -22, -19, -15, -12, -9, -6, -3, 0,
    3, 6, 9, 13, 16, 19, 23, 26,
    29, 33, 36, 39, 43, 46, 49, 53,
    56, 59, 63] : List Int).getD i 0

-- schedniceptr is SCHEDNICEHALF items behind the start of the table.
def schedsetnice (val : Int) : Int :=
  let val := max (-20) val
  let val := min 19 val
  schednicetab (schednicehalf + val).toNat

def schedhistorysize : UInt32 := 2250

def kernelunits : Units where
  fastu16div16 num den :=
    (Arith.fastu16div16 (UInt16.ofBitVec num) (UInt16.ofBitVec den)
      (fastu16div16gentab schedhistorysize ⟨fun _ => ⟨0, 0⟩, []⟩).cell).toBitVec
  hz := 250

-- The divisors of the quotients that a call takes, in their order.
def scheddivisors (attr : Attr) : List Int :=
  if attr.sched ≤ schedsystem ∨ schedidle ≤ attr.sched ∨ attr.sched = schedresponsive ∨ attr.hasinput then []
  else
    (if attr.runtime ≥ attr.slptime then [] else [max 1 (attr.slptime / 64)]) ++
      (if max 0 (schedcalcscore kernelunits attr + attr.nice) < schedscoreintlim ∨ attr.ntick = 0 then []
      else
        let total := max (attr.lastrun - attr.firstrun) kernelunits.hz
        [roundup total 256, kernelunits.div total (roundup total 256)])

inductive Target where
  | ia32 | x86_64
deriving DecidableEq

def Target.longsize : Target → Nat
  | .ia32 => 4
  | .x86_64 => 8

def Target.clsize : Target → Nat
  | .ia32 => 32
  | .x86_64 => 64

-- The words of a bit map for n queues, which is the size of loadmap as well.
def Target.mapnword (target : Target) (n : Nat) : Nat := max (n / (8 * target.longsize)) (target.clsize / target.longsize)

-- The element of each array that a call goes to, with the number of its elements:
-- the queue, the byte of the bit map, and the word of loadmap.
def schedaccesses (target : Target) (place : Place) : List (Int × Nat) :=
  [(place.ndx, limit place.which), (place.ndx / 8, target.mapnword (limit place.which) * target.longsize),
    (place.qid, target.mapnword (schednqueue + schednidle))]

def Inside (access : Int × Nat) : Prop := 0 ≤ access.1 ∧ access.1 < access.2

instance (access : Int × Nat) : Decidable (Inside access) := inferInstanceAs (Decidable (_ ∧ _))

def Safe (target : Target) (attr : Attr) : Prop :=
  (∀ den ∈ scheddivisors attr, divides (UInt16.ofBitVec (BitVec.ofInt 16 den))
      (fastu16div16gentab schedhistorysize ⟨fun _ => ⟨0, 0⟩, []⟩).cell = true → UInt16.ofBitVec (BitVec.ofInt 16 den) ≠ 0) ∧
    ∀ access ∈ schedaccesses target (schedplace kernelunits attr).1, Inside access

-- The tasks that are made ready: the class is one of those from the interrupt tasks
-- to the idle ones, and the priority is of the class.
structure Ranged (attr : Attr) : Prop where
  low : schedrealtimerr ≤ attr.sched
  high : attr.sched ≤ schedidle
  least : schedclassminprio (if attr.sched = schedrealtimerr then schedrealtime else attr.sched) ≤ attr.prio
  most : attr.prio ≤ schedclassmaxprio (if attr.sched = schedrealtimerr then schedrealtime else attr.sched)
  runtime : 0 ≤ attr.runtime
  slptime : 0 ≤ attr.slptime
  ntick : 0 ≤ attr.ntick
  firstrun : 0 ≤ attr.firstrun
  lastrun : attr.firstrun ≤ attr.lastrun

-- A task that slept long enough for its quotient of run and sleep time to count as
-- interactive, in the 16 bits that the table divides.
def Sleeper (run slp : Int) : Prop :=
  run < slp ∧ (if max 1 (slp / 64) % 65536 = 0 then run % 65536 * 2250 / 65536 else run % 65536 / (max 1 (slp / 64) % 65536)) < 32

instance (run slp : Int) : Decidable (Sleeper run slp) := inferInstanceAs (Decidable (_ ∧ _))

-- The tasks with a queue number below the words of loadmap.
def Covered (attr : Attr) (val : Int) : Prop :=
  attr.sched = schedtrap ∧ attr.prio < 8 ∨
    (attr.sched = schednormal ∨ attr.sched = schedbatch) ∧ attr.hasinput = false ∧ attr.ntick = 0 ∧
      ¬ (-12 ≤ val ∧ Sleeper attr.runtime attr.slptime)

theorem mapnword_eq (target : Target) : target.mapnword 32 = 8 ∧ target.mapnword 192 = 8 ∧ target.mapnword 224 = 8 := by
  cases target <;> decide

theorem ofInt_toNat (value : Int) : ((UInt16.ofBitVec (BitVec.ofInt 16 value)).toNat : Int) = value % 65536 := by
  rw [UInt16.toNat_ofBitVec, BitVec.toNat_ofInt]
  omega

theorem kernelunits_div (num den : Int) :
    kernelunits.div num den = if den % 65536 = 0 then num % 65536 * 2250 / 65536 else num % 65536 / (den % 65536) := by
  have divisor := ofInt_toNat den
  have dividend := ofInt_toNat num
  rw [Units.div, kernelunits, UInt16.toNat_toBitVec]
  by_cases zero : den % 65536 = 0
  · have none : UInt16.ofBitVec (BitVec.ofInt 16 den) = 0 := by
      apply UInt16.toNat_inj.mp
      rw [UInt16.toNat_zero]
      omega
    rw [if_pos zero, none, gentab_zero schedhistorysize (by decide) (by decide)]
    have size : schedhistorysize.toNat = 2250 := rfl
    rw [size]
    omega
  · have some : UInt16.ofBitVec (BitVec.ofInt 16 den) ≠ 0 := by
      intro none
      rw [none, UInt16.toNat_zero] at divisor
      omega
    rw [if_neg zero, gentab_divides schedhistorysize (by decide) (by decide) _ _ _ some, Int.natCast_ediv, dividend, divisor]

theorem kernelunits_div_nonneg (num den : Int) : 0 ≤ kernelunits.div num den := Int.natCast_nonneg _

theorem schedsetnice_cases : ∀ val : Fin 40, schedsetnice ((val : Int) - 20) = 0 ∧ 8 ≤ (val : Nat) ∨
    32 ≤ schedsetnice ((val : Int) - 20) ∧ (val : Nat) < 8 := by
  decide

-- Nice values above -13 move nothing; those below move the score past the limit.
theorem schedsetnice_eq (val : Int) : schedsetnice val = 0 ∧ -12 ≤ val ∨ 32 ≤ schedsetnice val ∧ val < -12 := by
  have clamped : schedsetnice val = schedsetnice (min 19 (max (-20) val)) := by
    simp only [schedsetnice]
    congr 3
    omega
  have cases := schedsetnice_cases ⟨(min 19 (max (-20) val) + 20).toNat, by omega⟩
  have back : (((min 19 (max (-20) val) + 20).toNat : Nat) : Int) - 20 = min 19 (max (-20) val) := by omega
  rw [clamped]
  simp only [back] at cases
  omega

theorem schedcalcqueue_eq (type pri : Int) : schedcalcqueue type pri = pri / 2 := by
  simp only [schedcalcqueue, schedclassminqueue, schednclassprio, schednclassqueue]
  omega

theorem schedcalcscore_eq (attr : Attr) : 0 ≤ schedcalcscore kernelunits attr ∧
    (schedcalcscore kernelunits attr < 32 ↔ Sleeper attr.runtime attr.slptime) := by
  rw [schedcalcscore, Sleeper]
  by_cases most : attr.runtime ≥ attr.slptime
  · rw [if_pos most]
    simp only [schedscorehalf]
    omega
  · rw [if_neg most, ← kernelunits_div]
    exact ⟨kernelunits_div_nonneg _ _, fun low => ⟨Int.lt_of_not_ge most, low⟩, fun both => both.2⟩

theorem interactive_iff (attr : Attr) (val : Int) (nice : attr.nice = schedsetnice val) :
    max 0 (schedcalcscore kernelunits attr + attr.nice) < schedscoreintlim ↔
      -12 ≤ val ∧ Sleeper attr.runtime attr.slptime := by
  obtain ⟨nonneg, score⟩ := schedcalcscore_eq attr
  rw [← score, nice]
  simp only [schedscoreintlim]
  rcases schedsetnice_eq val with ⟨zero, high⟩ | ⟨large, low⟩ <;> omega

theorem divisors_some (den : Int)
    (divided : divides (UInt16.ofBitVec (BitVec.ofInt 16 den))
      (fastu16div16gentab schedhistorysize ⟨fun _ => ⟨0, 0⟩, []⟩).cell = true) : UInt16.ofBitVec (BitVec.ofInt 16 den) ≠ 0 :=
  divides_some schedhistorysize (by decide) (by decide) _ _ divided

-- The bit maps have room for every queue, so the queue array and loadmap decide.
theorem accesses_iff (target : Target) (place : Place) :
    (∀ access ∈ schedaccesses target place, Inside access) ↔
      (0 ≤ place.ndx ∧ place.ndx < limit place.which) ∧ 0 ≤ place.qid ∧ place.qid < 8 := by
  obtain ⟨idle, ready, total⟩ := mapnword_eq target
  have bytes : limit place.which ≤ 8 * (target.mapnword (limit place.which) * target.longsize) := by
    have size : 4 ≤ target.longsize := by cases target <;> decide
    cases place.which with
    | cur | next => rw [limit, schednqueue, ready]; omega
    | idle => rw [limit, schednidle, idle]; omega
  simp only [schedaccesses, List.forall_mem_cons, Inside]
  rw [schednqueue, schednidle, total]
  constructor
  · rintro ⟨queue, map, load, none⟩
    exact ⟨queue, load⟩
  · rintro ⟨queue, load⟩
    refine ⟨queue, ?_, load, fun access none => absurd none List.not_mem_nil⟩
    omega

-- The queue number of each class: half the priority, but for the interrupt tasks.
theorem system_place (attr : Attr) (ranged : Ranged attr) (system : attr.sched ≤ schedsystem) :
    ∃ qid, (schedplace kernelunits attr).1 = ⟨.cur, qid, qid⟩ ∧
      (attr.sched = schedtrap ∧ qid = attr.prio ∧ 0 ≤ qid ∧ qid < 192 ∨ attr.sched ≠ schedtrap ∧ 32 ≤ qid ∧ qid < 192) := by
  have least := ranged.least
  have most := ranged.most
  have cases : attr.sched = -1 ∨ attr.sched = 0 ∨ attr.sched = 1 ∨ attr.sched = 2 := by
    have low := ranged.low
    simp only [schedrealtimerr, schedsystem] at low system
    omega
  rw [schedplace, if_pos system, schedplacesystem]
  rcases cases with here | here | here | here <;>
    simp only [here, schedsystem, schedrealtimerr, schedrealtime, schedtrap, schedclassminprio, schedclassmaxprio, schednclassprio, if_true,
      Int.reduceEq, Int.reduceNeg, if_false, schedcalcqueue_eq, true_and, ne_eq, not_true, not_false_eq_true, false_and, or_false,
      false_or] at least most ⊢
  · exact ⟨_, rfl, by omega⟩
  · exact ⟨_, rfl, by omega⟩
  · exact ⟨_, rfl, by omega⟩
  · exact ⟨_, rfl, by omega⟩

theorem idle_place (attr : Attr) (ranged : Ranged attr) (idle : attr.sched = schedidle) :
    ∃ ndx qid, (schedplace kernelunits attr).1 = ⟨.idle, ndx, qid⟩ ∧ 0 ≤ ndx ∧ ndx < 32 ∧ 192 ≤ qid := by
  have least := ranged.least
  have most := ranged.most
  rw [schedplace, idle, if_neg (by decide), if_neg (by decide), schedplaceidle]
  simp only [idle, schedidle, schedrealtimerr, schedclassminprio, schedclassmaxprio, schednclassprio, schedcalcqueue_eq,
    schedclassminqueue, schednclassqueue, schednidle, Int.reduceEq, Int.reduceNeg, if_false] at least most ⊢
  exact ⟨_, _, rfl, by omega⟩

theorem timeshare_place (attr : Attr) (val : Int) (ranged : Ranged attr) (nice : attr.nice = schedsetnice val)
    (above : schedsystem < attr.sched) (below : attr.sched < schedidle) :
    ∃ which qid, (schedplace kernelunits attr).1 = ⟨which, qid, qid⟩ ∧ which ≠ .idle ∧
      (Covered attr val ∧ qid = 0 ∨ ¬ Covered attr val ∧ 32 ≤ qid) := by
  have least := ranged.least
  have cases : attr.sched = 3 ∨ attr.sched = 4 ∨ attr.sched = 5 := by
    simp only [schedsystem, schedidle] at above below
    omega
  have other : attr.sched ≠ schedtrap := by
    simp only [schedtrap]
    omega
  rw [schedplace, if_neg (by omega), if_pos below, schedplacetimeshare, Covered]
  by_cases responsive : attr.sched = schedresponsive
  · rw [if_pos responsive]
    simp only [responsive, schedcalcqueue_eq]
    refine ⟨.cur, _, rfl, by decide, Or.inr ⟨?_, ?_⟩⟩
    · rintro (⟨trap, rest⟩ | ⟨normal | batch, rest⟩) <;> contradiction
    · simp only [responsive, schedresponsive, schedrealtimerr, schedclassminprio, schednclassprio, Int.reduceEq, Int.reduceNeg,
        if_false] at least
      omega
  · rw [if_neg responsive]
    have normal : attr.sched = schednormal ∨ attr.sched = schedbatch := by
      simp only [schedresponsive, schednormal, schedbatch] at responsive ⊢
      omega
    by_cases hasinput : attr.hasinput = true
    · rw [if_pos hasinput]
      simp only [schedcalcqueue_eq]
      refine ⟨.cur, _, rfl, by decide, Or.inr ⟨?_, by decide⟩⟩
      rintro (trap | ⟨_, none, rest⟩)
      · exact other trap.1
      · rw [hasinput] at none
        contradiction
    · rw [if_neg hasinput]
      have interactive := interactive_iff attr val nice
      have nonneg := (schedcalcscore_eq attr).1
      have offset : 0 ≤ attr.nice := by
        rw [nice]
        rcases schedsetnice_eq val with ⟨zero, high⟩ | ⟨large, low⟩ <;> omega
      have plain : attr.hasinput = false := Bool.not_eq_true _ ▸ hasinput
      by_cases low : max 0 (schedcalcscore kernelunits attr + attr.nice) < schedscoreintlim
      · simp only [schedcalcqueue_eq, schedcalcintparm, if_pos low]
        refine ⟨.cur, _, rfl, by decide, Or.inr ⟨?_, ?_⟩⟩
        · rintro (trap | ⟨_, _, _, fast⟩)
          · exact other trap.1
          · exact fast (interactive.mp low)
        · simp only [scheduserpriomin, scheduserpriomax]
          omega
      · by_cases ticks : attr.ntick = 0
        · simp only [schedcalcqueue_eq, schedcalcintparm, if_neg low, ticks, ne_eq, not_true, if_false]
          exact ⟨.next, _, rfl, by decide, Or.inl ⟨Or.inr ⟨normal, plain, trivial, mt interactive.mpr low⟩, by decide⟩⟩
        · simp only [schedcalcqueue_eq, schedcalcintparm, if_neg low, ticks, ne_eq, not_false_eq_true, if_true]
          refine ⟨.next, _, rfl, by decide, Or.inr ⟨?_, ?_⟩⟩
          · rintro (trap | ⟨_, _, none, _⟩)
            · exact other trap.1
            · exact none
          · have quotient := kernelunits_div_nonneg (attr.ntick / 1024)
              (kernelunits.div (max (attr.lastrun - attr.firstrun) kernelunits.hz)
                (roundup (max (attr.lastrun - attr.firstrun) kernelunits.hz)
                  (scheduserpriomax + schednicehalf - (scheduserpriomin - schednicehalf) + 1)))
            simp only [scheduserpriomin, scheduserpriomax, schednicehalf] at quotient ⊢
            omega

theorem accesses_covered (target : Target) (attr : Attr) (val : Int) (ranged : Ranged attr) (nice : attr.nice = schedsetnice val) :
    (∀ access ∈ schedaccesses target (schedplace kernelunits attr).1, Inside access) ↔ Covered attr val := by
  rw [accesses_iff]
  by_cases system : attr.sched ≤ schedsystem
  · obtain ⟨qid, place, kind⟩ := system_place attr ranged system
    have covered : Covered attr val ↔ attr.sched = schedtrap ∧ attr.prio < 8 := by
      rw [Covered, or_iff_left]
      rintro ⟨normal | batch, rest⟩
      · rw [normal] at system
        contradiction
      · rw [batch] at system
        contradiction
    rw [covered, place]
    simp only [limit, schednqueue]
    rcases kind with ⟨trap, same, low, high⟩ | ⟨other, low, high⟩
    · simp only [trap, true_and, same] at low high ⊢
      omega
    · simp only [other, false_and, iff_false]
      omega
  · by_cases below : attr.sched < schedidle
    · obtain ⟨which, qid, place, table, kind⟩ := timeshare_place attr val ranged nice (Int.lt_of_not_ge system) below
      have size : limit which = 192 := by cases which <;> first | rfl | contradiction
      rw [place]
      simp only [size]
      rcases kind with ⟨covered, zero⟩ | ⟨covered, far⟩
      · simp only [covered, iff_true, zero]
        decide
      · simp only [covered, iff_false]
        omega
    · obtain ⟨ndx, qid, place, low, high, far⟩ := idle_place attr ranged (Int.le_antisymm ranged.high (Int.not_lt.mp below))
      rw [place]
      constructor
      · rintro ⟨queue, load⟩
        simp only at load
        omega
      · rintro (⟨trap, _⟩ | ⟨normal | batch, rest⟩)
        · exact absurd (Int.le_of_eq trap) (fun low => system (Int.le_trans low (by decide)))
        · exact absurd (normal ▸ below) (by decide)
        · exact absurd (batch ▸ below) (by decide)

-- No call divides by zero. The accesses stay inside their arrays for the tasks alone
-- whose queue number is below the words of loadmap, as many as a bit map needs.
theorem schedsetready_safe_iff (target : Target) (attr : Attr) (val : Int) (ranged : Ranged attr)
    (nice : attr.nice = schedsetnice val) : Safe target attr ↔ Covered attr val := by
  rw [Safe, accesses_covered target attr val ranged nice]
  exact and_iff_right fun den _ divided => divisors_some den divided

theorem schedsetready_safe_iff_at_trap : Safe .ia32 trapTask :=
  (schedsetready_safe_iff .ia32 trapTask 0 ⟨by decide, by decide, by decide, by decide, by decide, by decide, by decide, by decide,
    by decide⟩ (by decide)).mpr (Or.inl (by decide))

def realtimeTask : Attr := { trapTask with sched := schedrealtime, prio := 64 }

-- A niced task that ran all of the ticks on record.
def nicedTask : Attr :=
  { trapTask with sched := schednormal, prio := 256, nice := schedsetnice (-20), ntick := 255 * 1024, lastrun := 256 }

theorem nicedTask_place : (schedplace kernelunits nicedTask).1 = ⟨.next, 211, 211⟩ := by
  have score : schedcalcscore kernelunits nicedTask = 64 := rfl
  have step : kernelunits.div 256 256 = 1 := kernelunits_div 256 256
  have ticks : kernelunits.div 255 1 = 255 := kernelunits_div 255 1
  have parm : schedcalcintparm kernelunits nicedTask = (422, 103) := by
    rw [schedcalcintparm, score, if_neg (by decide), if_pos (by decide)]
    have total : max (nicedTask.lastrun - nicedTask.firstrun) kernelunits.hz = 256 := rfl
    have range : roundup 256 (scheduserpriomax + schednicehalf - (scheduserpriomin - schednicehalf) + 1) = 256 := rfl
    have taken : nicedTask.ntick / 1024 = 255 := rfl
    simp only [total, range, taken, step, ticks]
    rfl
  rw [schedplace, if_neg (by decide), if_pos (by decide), schedplacetimeshare, if_neg (by decide), if_neg (by decide), parm]
  rfl

theorem schedsetready_outside :
    ¬ Safe .ia32 realtimeTask ∧ ¬ Inside ((schedplace kernelunits nicedTask).1.ndx, limit (schedplace kernelunits nicedTask).1.which) := by
  constructor
  · rintro ⟨divisions, accesses⟩
    have load := accesses (32, 8) (by decide)
    exact absurd load (by decide)
  · rw [nicedTask_place]
    decide

end OsZero.Sched
