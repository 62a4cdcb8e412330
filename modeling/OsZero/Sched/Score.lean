import Mathlib.Algebra.Group.Int.Defs
import OsZero.Sched.Index

set_option autoImplicit false

namespace OsZero.Sched

def schedscoremax : Int := 128

-- SCHEDTICKSHIFT is 10.
def schedrectimemax : Int := kernelunits.hz * 4 * 1024

def schedrectimeforkmax : Int := kernelunits.hz * 2 * 1024

-- The call with all its branches, and the score that it stores.
def schedcalcscorecall (units : Units) (task : Attr) : Int × Attr :=
  let run := task.runtime
  let slp := task.slptime
  let res :=
    if schedscoreintlim ≤ schedscorehalf ∧ run ≥ slp then schedscorehalf
    else if run > slp then schedscoremax - units.div slp (max 1 (run / 64))
    else if slp > run then units.div run (max 1 (slp / 64))
    else if run ≠ 0 then schedscorehalf
    else 0
  (res, { task with score := res })

def schedadjintparm (task : Attr) : Attr :=
  let run := task.runtime
  let slp := task.slptime
  let sum := run + slp
  if sum < schedrectimemax then task
  else if sum > 2 * schedrectimemax then
    if run > slp then { task with runtime := schedrectimemax, slptime := 1 }
    else { task with runtime := 1, slptime := schedrectimemax }
  else if sum > schedrectimemax / 8 * 9 then { task with runtime := run / 2, slptime := slp / 2 }
  else { task with runtime := run / 4 * 3, slptime := slp / 4 * 3 }

-- The branch for HZ == 250 and SCHEDHISTORYNSEC == 8.
def schedadjforkintparm (task : Attr) : Attr :=
  let run := task.runtime
  let slp := task.slptime
  let sum := run + slp
  if sum > schedrectimeforkmax then { task with runtime := run / 8 + run / 4, slptime := slp / 8 + slp / 4 } else task

theorem schedcalcscorecall_eq (units : Units) (task : Attr) :
    schedcalcscorecall units task = (schedcalcscore units task, { task with score := schedcalcscore units task }) := by
  have limits : schedscoreintlim ≤ schedscorehalf := by decide
  have result : (schedcalcscorecall units task).1 = schedcalcscore units task := by
    rw [schedcalcscorecall, schedcalcscore]
    dsimp only
    by_cases most : task.runtime ≥ task.slptime
    · rw [if_pos ⟨limits, most⟩, if_pos most]
    · rw [if_neg fun both => most both.2, if_neg most, if_neg fun more => most (Int.le_of_lt more), if_pos (Int.lt_of_not_ge most)]
  rw [← result]
  rfl

-- The history that schedadjintparm keeps.
structure History (task : Attr) : Prop where
  runtime : 0 ≤ task.runtime
  slptime : 0 ≤ task.slptime
  sum : task.runtime + task.slptime ≤ schedrectimemax + 1

theorem score_awake (task : Attr) (most : task.slptime ≤ task.runtime) : schedcalcscore kernelunits task = schedscorehalf := by
  rw [schedcalcscore, if_pos most]

-- The table divides what 16 bits hold of the run time; the divisor always fits.
theorem score_asleep (task : Attr) (history : History task) (less : task.runtime < task.slptime) :
    schedcalcscore kernelunits task = task.runtime % 65536 / max 1 (task.slptime / 64) := by
  obtain ⟨run, slp, sum⟩ := history
  have most : schedrectimemax = 1024000 := rfl
  rw [schedcalcscore, if_neg (by omega), kernelunits_div, if_neg (by omega)]
  congr 1
  omega

theorem score_range (task : Attr) (history : History task) : 0 ≤ schedcalcscore kernelunits task ∧ schedcalcscore kernelunits task ≤ schedscoremax := by
  by_cases most : task.slptime ≤ task.runtime
  · rw [score_awake task most]
    decide
  · have less := Int.lt_of_not_ge most
    obtain ⟨run, slp, sum⟩ := history
    rw [score_asleep task ⟨run, slp, sum⟩ less]
    constructor
    · exact Int.ediv_nonneg (by omega) (by omega)
    · refine Int.lt_add_one_iff.mp (Int.ediv_lt_of_lt_mul (by omega) ?_)
      rw [schedscoremax]
      omega

-- Below the sleep time, the score grows with the run time.
theorem score_grows (task : Attr) (history : History task) (run : Int) (more : task.runtime ≤ run) (less : run < task.slptime) (narrow : run < 65536)
    (sum : run + task.slptime ≤ schedrectimemax + 1) :
    schedcalcscore kernelunits task ≤ schedcalcscore kernelunits { task with runtime := run } := by
  have positive := history.runtime
  rw [score_asleep task history (by omega), score_asleep { task with runtime := run } ⟨by dsimp only; omega, history.slptime, sum⟩ less]
  dsimp only
  rw [Int.emod_eq_of_lt positive (by omega), Int.emod_eq_of_lt (by omega) narrow]
  exact Int.ediv_le_ediv (by omega) more

theorem schedcalcscore_matches (task : Attr) (history : History task) :
    (schedcalcscorecall kernelunits task).2 = { task with score := (schedcalcscorecall kernelunits task).1 } ∧
      (task.runtime ≥ task.slptime → (schedcalcscorecall kernelunits task).1 = schedscorehalf) ∧
      (task.runtime < task.slptime → task.runtime < 65536 →
        (schedcalcscorecall kernelunits task).1 = task.runtime / max 1 (task.slptime / 64)) ∧
      (0 ≤ (schedcalcscorecall kernelunits task).1 ∧ (schedcalcscorecall kernelunits task).1 ≤ schedscoremax) ∧
      ∀ run, task.runtime ≤ run → run + task.slptime ≤ schedrectimemax + 1 → run < task.slptime ∧ run < 65536 ∨ task.slptime ≤ task.runtime →
        (schedcalcscorecall kernelunits task).1 ≤ (schedcalcscorecall kernelunits { task with runtime := run }).1 := by
  simp only [schedcalcscorecall_eq]
  refine ⟨trivial, score_awake task, fun less narrow => ?_, score_range task history, ?_⟩
  · rw [score_asleep task history less, Int.emod_eq_of_lt history.runtime narrow]
  · rintro run more sum (⟨less, narrow⟩ | most)
    · exact score_grows task history run more less narrow sum
    · rw [score_awake task most, score_awake { task with runtime := run } (Int.le_trans most more)]

def ranTask (run slp : Int) : Attr :=
  { sched := schednormal, prio := 256, hasinput := false, runtime := run, slptime := slp, score := 0, nice := 0, ntick := 0, lastrun := 0, firstrun := 0 }

theorem score_of_short_run : (schedcalcscorecall kernelunits (ranTask 60000 400000)).1 = 9 :=
  (schedcalcscore_matches (ranTask 60000 400000) ⟨by decide, by decide, by decide⟩).2.2.1 (by decide) (by decide)

-- One tick more of run time halves the score where it reaches a short sleep time, and a run time past 16 bits is cut off.
theorem score_falls :
    (schedcalcscorecall kernelunits (ranTask 126 127)).1 = 126 ∧ (schedcalcscorecall kernelunits (ranTask 127 127)).1 = 64 ∧
      (schedcalcscorecall kernelunits (ranTask 65536 200000)).1 = 0 ∧ (65536 : Int) / max 1 (200000 / 64) = 20 := by
  refine ⟨?_, ?_, ?_, by decide⟩
  · rw [schedcalcscorecall_eq, score_asleep _ ⟨by decide, by decide, by decide⟩ (by decide)]
    decide
  · rw [schedcalcscorecall_eq, score_awake _ (by decide)]
    rfl
  · rw [schedcalcscorecall_eq, score_asleep _ ⟨by decide, by decide, by decide⟩ (by decide)]
    decide

theorem schedadjintparm_cases (task : Attr) :
    (task.runtime + task.slptime < 1024000 ∧ schedadjintparm task = task) ∨
      (2048000 < task.runtime + task.slptime ∧
        ((task.slptime < task.runtime ∧ schedadjintparm task = { task with runtime := 1024000, slptime := 1 }) ∨
          (task.runtime ≤ task.slptime ∧ schedadjintparm task = { task with runtime := 1, slptime := 1024000 }))) ∨
      (1152000 < task.runtime + task.slptime ∧ task.runtime + task.slptime ≤ 2048000 ∧
        schedadjintparm task = { task with runtime := task.runtime / 2, slptime := task.slptime / 2 }) ∨
      (1024000 ≤ task.runtime + task.slptime ∧ task.runtime + task.slptime ≤ 1152000 ∧
        schedadjintparm task = { task with runtime := task.runtime / 4 * 3, slptime := task.slptime / 4 * 3 }) := by
  have most : schedrectimemax = 1024000 := rfl
  rw [schedadjintparm, most]
  by_cases few : task.runtime + task.slptime < 1024000
  · exact Or.inl ⟨few, if_pos few⟩
  rw [if_neg few]
  by_cases twice : task.runtime + task.slptime > 2 * 1024000
  · rw [if_pos twice]
    by_cases awake : task.runtime > task.slptime
    · exact Or.inr (Or.inl ⟨by omega, Or.inl ⟨awake, if_pos awake⟩⟩)
    · exact Or.inr (Or.inl ⟨by omega, Or.inr ⟨by omega, if_neg awake⟩⟩)
  rw [if_neg twice]
  by_cases eighth : task.runtime + task.slptime > 1024000 / 8 * 9
  · exact Or.inr (Or.inr (Or.inl ⟨by omega, by omega, if_pos eighth⟩))
  · exact Or.inr (Or.inr (Or.inr ⟨by omega, by omega, if_neg eighth⟩))

theorem schedadjforkintparm_sum (task : Attr) (sum : task.runtime + task.slptime ≤ schedrectimemax + 1) :
    (schedadjforkintparm task).runtime + (schedadjforkintparm task).slptime ≤ schedrectimeforkmax := by
  have most : schedrectimemax = 1024000 := rfl
  have fork : schedrectimeforkmax = 512000 := rfl
  rw [schedadjforkintparm]
  by_cases more : task.runtime + task.slptime > schedrectimeforkmax
  · rw [if_pos more]
    dsimp only
    omega
  · rw [if_neg more]
    exact Int.not_lt.mp more

theorem history_bounded (task : Attr) (run : 0 ≤ task.runtime) (slp : 0 ≤ task.slptime) (sum : task.runtime + task.slptime < 2 ^ 31) :
    History (schedadjintparm task) ∧
      (task.runtime ≥ task.slptime → ¬ (task.runtime = task.slptime ∧ task.runtime + task.slptime > 2 * schedrectimemax) →
        (schedadjintparm task).runtime ≥ (schedadjintparm task).slptime) ∧
      (task.runtime = task.slptime → task.runtime + task.slptime > 2 * schedrectimemax →
        (schedadjintparm task).runtime < (schedadjintparm task).slptime) ∧
      (task.runtime < task.slptime → (schedadjintparm task).runtime ≤ (schedadjintparm task).slptime) ∧
      (schedrectimemax ≤ task.runtime + task.slptime → task.runtime + task.slptime ≤ schedrectimemax / 8 * 9 →
        100 * ((schedadjintparm task).runtime + (schedadjintparm task).slptime) < 85 * schedrectimemax) ∧
      (task.runtime + task.slptime ≤ schedrectimemax + 1 →
        (schedadjforkintparm task).runtime + (schedadjforkintparm task).slptime ≤ schedrectimeforkmax) := by
  have most : schedrectimemax = 1024000 := rfl
  rcases schedadjintparm_cases task with ⟨few, after⟩ | ⟨twice, ⟨awake, after⟩ | ⟨asleep, after⟩⟩ | ⟨more, less, after⟩ | ⟨more, less, after⟩
  · rw [after]
    exact ⟨⟨run, slp, by omega⟩, by omega, by omega, by omega, by omega, schedadjforkintparm_sum task⟩
  all_goals
    rw [after]
    refine ⟨⟨?_, ?_, ?_⟩, ?_, ?_, ?_, ?_, schedadjforkintparm_sum task⟩
    all_goals
      dsimp only
      omega

theorem history_bounded_long_run : History (schedadjintparm (ranTask 1500000 700000)) :=
  (history_bounded (ranTask 1500000 700000) (by decide) (by decide) (by decide)).1

end OsZero.Sched
