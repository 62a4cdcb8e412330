import OsZero.CoreWar.Disasm

set_option autoImplicit false

namespace OsZero.CoreWar

-- Where the parts of an operand end on its line.
def pastMode : List Char → List Char
  | [] => []
  | c :: cs => if c = '#' ∨ c = '@' ∨ c = '<' ∨ c = '$' then cs else c :: cs

def pastSign : List Char → List Char
  | [] => []
  | c :: cs => if c = '-' then cs else c :: cs

def numbered (l : List Char) : Bool := ((pastSign (pastMode l)).head?.map isdigit).getD false

def pastNumber (l : List Char) : List Char := (pastSign (pastMode l)).dropWhile isdigit

-- What becomes of a line: it is read past its end or through NULL, it is
-- diagnosed, or it is an instruction.
inductive Course where
  | lost | diagnosed | whole
deriving DecidableEq

def fieldCourse (l : List Char) : Course := if numbered l then .whole else .diagnosed

def lastCourse (l : List Char) : Course :=
  match l.dropWhile isspace with
  | [] => .lost
  | c :: cs =>
      if c = ',' then
        match cs.dropWhile isspace with
        | [] => .lost
        | d :: ds => fieldCourse (d :: ds)
      else fieldCourse (c :: cs)

def tailCourse (op : Opcode) (l : List Char) : Course :=
  match l.dropWhile isspace with
  | [] => .lost
  | c :: cs =>
      if c = '\x00' then .whole
      else if rcnarg op = 2 then
        if numbered (c :: cs) then lastCourse (pastNumber (c :: cs)) else .diagnosed
      else lastCourse (c :: cs)

def word (text : List Char) : List Char := text.takeWhile fun c => !isspace c

-- The first two letters lead to a table, and the third to no entry of it.
def halfNamed (text : List Char) : Bool :=
  match word text with
  | [c0, c1, c2] => isalpha c1 && isalpha c2 && rctable [toupper c0, toupper c1]
  | _ => false

def course (text : List Char) : Course :=
  match rcoptab.lookup ((word text).map toupper) with
  | some op => tailCourse op (text.drop 3)
  | none => if halfNamed text then .lost else .diagnosed

example : course ['m', 'o', 'v', ' ', '#', '4', ',', ' ', '1'] = .whole := by decide

example : course ['D', 'A', 'T'] = .lost := by decide

theorem skip_line (skip : Char → Bool) (l rest : List Char) (c : Char) (cs : List Char) (left : l.dropWhile skip = c :: cs) :
    rcskipwhile skip (l ++ rest) = .ok (c :: cs ++ rest) := by
  induction l with
  | nil => cases left
  | cons d l ih =>
      rw [List.cons_append, rcskipwhile]
      rw [List.dropWhile_cons] at left
      split_ifs at left ⊢ with skipped
      · exact ih left
      · rw [left.symm]
        rfl

theorem skip_past (skip : Char → Bool) (l rest : List Char) (none_left : l.dropWhile skip = []) : rcskipwhile skip (l ++ rest) = rcskipwhile skip rest := by
  induction l with
  | nil => rfl
  | cons d l ih =>
      rw [List.dropWhile_cons] at none_left
      split_ifs at none_left with skipped
      rw [List.cons_append, rcskipwhile, if_pos skipped]
      exact ih none_left

theorem rcpeek_line (l rest : List Char) : rcpeek (l ++ '\n' :: rest) = .ok (l.headD '\n') := by
  cases l <;> rfl

theorem rcmode_line (l : List Char) : ∃ mode, ∀ rest, rcmode (l ++ '\n' :: rest) = .ok (mode, pastMode l ++ '\n' :: rest) := by
  cases l with
  | nil => exact ⟨.plain, fun _ => rfl⟩
  | cons c cs =>
      unfold rcmode pastMode
      simp only [List.cons_append, rcpeek, bind, Except.bind, List.drop_succ_cons, List.drop_zero]
      split_ifs with immediate indirect predecrement dollar
      all_goals simp_all

theorem sign_line (l rest : List Char) : (if l.headD '\n' = '-' then (l ++ '\n' :: rest).drop 1 else l ++ '\n' :: rest) = pastSign l ++ '\n' :: rest := by
  cases l with
  | nil => rfl
  | cons c cs =>
      rw [pastSign, List.headD_cons, List.cons_append, List.drop_one, List.tail_cons]
      split_ifs <;> rfl

theorem rcdigits_line (l : List Char) (val : Nat) : ∃ last, ∀ rest, rcdigits val (l ++ '\n' :: rest) = .ok (last, l.dropWhile isdigit ++ '\n' :: rest) := by
  induction l generalizing val with
  | nil => exact ⟨val, fun _ => rfl⟩
  | cons c cs ih =>
      obtain ⟨last, reads⟩ := ih ((val * 10 + (c.toNat - 48)) % 2 ^ 64)
      by_cases digit : isdigit c = true
      · exact ⟨last, fun rest => by rw [List.cons_append, rcdigits, if_pos digit, reads, List.dropWhile_cons_of_pos digit]⟩
      · exact ⟨val, fun rest => by rw [List.cons_append, rcdigits, if_neg digit, List.dropWhile_cons_of_neg digit, List.cons_append]⟩

theorem numbered_head (l : List Char) : isdigit ((pastSign (pastMode l)).headD '\n') = numbered l := by
  unfold numbered
  cases pastSign (pastMode l) <;> rfl

-- An operand ends before the newline, whether or not it is one.
theorem rcoperand_line (l : List Char) : ∃ operand, ∀ invalid rest, rcoperand invalid (l ++ '\n' :: rest) =
    if numbered l then .ok (operand, pastNumber l ++ '\n' :: rest) else .error (.exit invalid) := by
  obtain ⟨mode, reads⟩ := rcmode_line l
  obtain ⟨val, digits⟩ := rcdigits_line (pastSign (pastMode l)) 0
  refine ⟨⟨mode, (pastMode l).headD '\n' = '-', val⟩, fun invalid rest => ?_⟩
  unfold rcoperand
  simp only [reads, bind, Except.bind, rcpeek_line, sign_line, numbered_head, digits]
  rfl

-- What rctail does behind the A-operand.
def rclast (op : Opcode) (aoperand : Option Operand) (cp : List Char) : Except Stop Line := do
  let cp ← rcskipwhile isspace cp
  let c ← rcpeek cp
  let cp ← if c = ',' then rcskipwhile isspace (cp.drop 1) else .ok cp
  let (boperand, _) ← rcoperand .invalidBField cp
  .ok ⟨op, aoperand, some boperand⟩

-- A run over a line and what is put behind it, which is a newline and any bytes; what is
-- lost without them would find its end at a NUL.
def Follows {α : Type} (run : List Char → Except Stop α) : Course → Prop
  | .lost => run ['\n'] = .error .fault ∧ run ['\n', '\x00'] ≠ .error .fault
  | .diagnosed => ∃ diagnostic, ∀ rest, run ('\n' :: rest) = .error (.exit diagnostic)
  | .whole => ∃ value, ∀ rest, run ('\n' :: rest) = .ok value

theorem field_follows (op : Opcode) (aoperand : Option Operand) (l : List Char) :
    Follows (fun rest => (rcoperand .invalidBField (l ++ rest)).bind fun read => .ok (⟨op, aoperand, some read.1⟩ : Line)) (fieldCourse l) := by
  obtain ⟨operand, reads⟩ := rcoperand_line l
  unfold fieldCourse
  cases number : numbered l with
  | false => exact ⟨.invalidBField, fun rest => by simp only [reads, number]; rfl⟩
  | true => exact ⟨⟨op, aoperand, some operand⟩, fun rest => by simp only [reads, number]; rfl⟩

theorem follows_congr {α : Type} (run other : List Char → Except Stop α) (course : Course) (same : ∀ rest, run ('\n' :: rest) = other ('\n' :: rest))
    (follows : Follows other course) : Follows run course := by
  cases course with
  | lost => exact ⟨(same _).trans follows.1, by rw [same]; exact follows.2⟩
  | diagnosed => exact follows.imp fun diagnostic all rest => (same rest).trans (all rest)
  | whole => exact follows.imp fun value all rest => (same rest).trans (all rest)

theorem follows_ended {α : Type} (run : List Char → Except Stop α) (course : Course) (follows : Follows run course) :
    run ['\n', '\x00'] ≠ .error .fault := by
  cases course with
  | lost => exact follows.2
  | diagnosed =>
      obtain ⟨diagnostic, runs⟩ := follows
      rw [runs]
      exact fun fault => by cases fault
  | whole =>
      obtain ⟨value, runs⟩ := follows
      rw [runs]
      exact fun fault => by cases fault

theorem last_follows (op : Opcode) (aoperand : Option Operand) (l : List Char) : Follows (fun rest => rclast op aoperand (l ++ rest)) (lastCourse l) := by
  unfold lastCourse
  cases left : l.dropWhile isspace with
  | nil =>
      have past := fun rest => skip_past isspace l rest left
      simp only [rclast, past, Follows]
      exact ⟨rfl, fun fault => by cases fault⟩
  | cons c cs =>
      have here := fun rest => skip_line isspace l rest c cs left
      by_cases comma : c = ','
      · subst comma
        simp only [if_true]
        cases more : cs.dropWhile isspace with
        | nil =>
            have past := fun rest => skip_past isspace cs rest more
            simp only [rclast, here, Follows, bind, Except.bind, List.cons_append, rcpeek, if_true, List.drop_one, List.tail_cons, past]
            exact ⟨rfl, fun fault => by cases fault⟩
        | cons d ds =>
            refine follows_congr _ _ _ (fun rest => ?_) (field_follows op aoperand (d :: ds))
            simp only [rclast, here, bind, Except.bind, List.cons_append, rcpeek, if_true, List.drop_one, List.tail_cons, skip_line isspace cs _ d ds more]
      · simp only [if_neg comma]
        refine follows_congr _ _ _ (fun rest => ?_) (field_follows op aoperand (c :: cs))
        simp only [rclast, here, bind, Except.bind, List.cons_append, rcpeek, if_neg comma]

theorem rctail_last (op : Opcode) (cp : List Char) (c : Char) (cs : List Char) (skipped : rcskipwhile isspace cp = .ok (c :: cs)) (more : c ≠ '\x00') :
    rctail op cp = if rcnarg op = 2 then (rcoperand .invalidAField (c :: cs)).bind fun read => rclast op (some read.1) read.2
      else rclast op none (c :: cs) := by
  unfold rctail rclast
  simp only [skipped, bind, Except.bind, rcpeek, if_neg more]

theorem tail_follows (op : Opcode) (l : List Char) : Follows (fun rest => rctail op (l ++ rest)) (tailCourse op l) := by
  unfold tailCourse
  cases left : l.dropWhile isspace with
  | nil =>
      have past := fun rest => skip_past isspace l rest left
      simp only [rctail, past, Follows]
      exact ⟨rfl, fun fault => by cases fault⟩
  | cons c cs =>
      have here := fun rest => skip_line isspace l rest c cs left
      by_cases ended : c = '\x00'
      · simp only [if_pos ended]
        refine ⟨⟨op, none, none⟩, fun rest => ?_⟩
        simp only [rctail, here, bind, Except.bind, List.cons_append, rcpeek, if_pos ended]
      · have goes : ∀ rest, rctail op (l ++ rest) = _ := fun rest => rctail_last op _ c (cs ++ rest) (here rest) ended
        simp only [if_neg ended]
        by_cases two : rcnarg op = 2
        · simp only [if_pos two] at goes ⊢
          obtain ⟨operand, reads⟩ := rcoperand_line (c :: cs)
          cases number : numbered (c :: cs) with
          | false =>
              refine ⟨.invalidAField, fun rest => ?_⟩
              have read := reads .invalidAField rest
              rw [number, if_neg Bool.false_ne_true] at read
              exact (goes _).trans (by rw [← List.cons_append, read]; rfl)
          | true =>
              refine follows_congr _ _ _ (fun rest => ?_) (last_follows op (some operand) (pastNumber (c :: cs)))
              have read := reads .invalidAField rest
              rw [number, if_pos rfl] at read
              exact (goes _).trans (by rw [← List.cons_append, read]; rfl)
        · simp only [if_neg two] at goes ⊢
          exact follows_congr _ _ _ (fun rest => goes _) (last_follows op none (c :: cs))

theorem toupper_letter (c : Char) (low : 65 ≤ (toupper c).toNat) (high : (toupper c).toNat ≤ 90) : isalpha c = true := by
  unfold isalpha
  unfold toupper at low high
  split_ifs at low high with lower
  · simp [lower]
  · simp [low, high]

theorem alpha_solid (c : Char) (alpha : isalpha c = true) : isspace c = false := by
  unfold isalpha at alpha
  unfold isspace
  simp only [decide_eq_true_eq, decide_eq_false_iff_not] at alpha ⊢
  rintro (rfl | blank)
  · exact absurd alpha (by decide)
  · omega

-- A registered name is three letters, and there are tables for its first two.
theorem named_word (w : List Char) (op : Opcode) (named : rcoptab.lookup (w.map toupper) = some op) :
    ∃ c0 c1 c2, w = [c0, c1, c2] ∧ isalpha c0 = true ∧ isalpha c1 = true ∧ isalpha c2 = true ∧ rctable [toupper c0, toupper c1] = true := by
  obtain ⟨front, back, split, -⟩ := List.lookup_eq_some_iff.mp named
  have entry : (w.map toupper, op) ∈ rcoptab := by simp [split]
  have names : ∀ entry ∈ rcoptab, entry.1.length = 3 ∧ ∀ c ∈ entry.1, 65 ≤ c.toNat ∧ c.toNat ≤ 90 := by simp [rcoptab]
  obtain ⟨length, letters⟩ := names _ entry
  rw [List.length_map] at length
  obtain ⟨c0, c1, c2, rfl⟩ := List.length_eq_three.mp length
  have letter : ∀ c ∈ [c0, c1, c2], isalpha c = true := fun c inside =>
    toupper_letter c (letters _ (List.mem_map_of_mem inside)).1 (letters _ (List.mem_map_of_mem inside)).2
  refine ⟨c0, c1, c2, rfl, letter c0 (by simp), letter c1 (by simp), letter c2 (by simp), ?_⟩
  exact List.any_eq_true.mpr ⟨_, entry, by simp [List.isPrefixOf]⟩

theorem table_first (a b : Char) (table : rctable [a, b] = true) : rctable [a] = true := by
  obtain ⟨entry, member, leads⟩ := List.any_eq_true.mp table
  refine List.any_eq_true.mpr ⟨entry, member, ?_⟩
  cases name : entry.1 with
  | nil => simp [name] at leads
  | cons c cs =>
      simp only [name, List.isPrefixOf, Bool.and_eq_true] at leads ⊢
      exact ⟨leads.1, trivial⟩

-- What rcfindop makes of a line is decided by its first word.
def found (text : List Char) : Except Stop (Option Opcode) :=
  match rcoptab.lookup ((word text).map toupper) with
  | some op => .ok (some op)
  | none => if halfNamed text then .error .fault else .ok none

theorem found_none (text : List Char) (other : ∀ c0 c1 c2, word text = [c0, c1, c2] → isalpha c1 = true → isalpha c2 = true →
    rctable [toupper c0, toupper c1] = false) : found text = .ok none := by
  unfold found
  cases named : rcoptab.lookup ((word text).map toupper) with
  | some op =>
      obtain ⟨c0, c1, c2, shape, -, one, two, table⟩ := named_word _ op named
      rw [other c0 c1 c2 shape one two] at table
      cases table
  | none =>
      have plain : halfNamed text = false := by
        unfold halfNamed
        split
        · rename_i c0 c1 c2 shape
          cases one : isalpha c1 with
          | false => rfl
          | true =>
              cases two : isalpha c2 with
              | false => rfl
              | true => rw [other c0 c1 c2 shape one two]; rfl
        · rfl
      rw [plain]
      rfl

theorem word_solid (c : Char) (cs : List Char) (solid : isspace c = false) : word (c :: cs) = c :: word cs := by
  simp [word, solid]

theorem word_blank (c : Char) (cs : List Char) (blank : isspace c = true) : word (c :: cs) = [] := by
  simp [word, blank]

theorem found_three (text : List Char) (c0 c1 c2 : Char) (shape : word text = [c0, c1, c2]) (one : isalpha c1 = true) (two : isalpha c2 = true)
    (table : rctable [toupper c0, toupper c1] = true) :
    found text = match rcoptab.lookup [toupper c0, toupper c1, toupper c2] with
      | some op => .ok (some op)
      | none => .error .fault := by
  unfold found halfNamed
  rw [shape]
  simp only [List.map_cons, List.map_nil, one, two, table, Bool.and_self, if_true]

theorem word_head (c d : Char) (cs ds : List Char) (shape : word (c :: cs) = d :: ds) : d = c ∧ word cs = ds := by
  cases blank : isspace c with
  | true =>
      rw [word_blank c cs blank] at shape
      cases shape
  | false =>
      rw [word_solid c cs blank] at shape
      exact ⟨(List.cons.inj shape).1.symm, (List.cons.inj shape).2⟩

theorem word_third (c0 c1 c2 : Char) (cs : List Char) (ends : word cs = []) (zero : isspace c0 = false) (one : isspace c1 = false) (two : isspace c2 = false) :
    word (c0 :: c1 :: c2 :: cs) = [c0, c1, c2] := by
  rw [word_solid c0 _ zero, word_solid c1 _ one, word_solid c2 _ two, ends]

theorem rcfindop_three (c0 c1 c2 c3 : Char) (cs : List Char) (first : rctable [toupper c0] = true)
    (second : isalpha c1 = true ∧ rctable [toupper c0, toupper c1] = true) (third : isalpha c2 = true) (blank : isspace c3 = true) :
    rcfindop (c0 :: c1 :: c2 :: c3 :: cs) = match rcoptab.lookup [toupper c0, toupper c1, toupper c2] with
      | some op => .ok (some op)
      | none => .error .fault := by
  unfold rcfindop
  cases named : rcoptab.lookup [toupper c0, toupper c1, toupper c2] with
  | none => simp [rcpeek, bind, Except.bind, first, second, third, blank, named]
  | some op => simp [rcpeek, bind, Except.bind, first, second, third, blank, named]

theorem rcfindop_line (c0 : Char) (cs rest : List Char) (alpha : isalpha c0 = true) :
    rcfindop (c0 :: cs ++ '\n' :: rest) = found (c0 :: cs) := by
  have newline : isalpha '\n' = false := rfl
  have ends : isspace '\n' = true := rfl
  by_cases first : rctable [toupper c0] = true
  · cases cs with
    | nil =>
        have short : found [c0] = .ok none := found_none _ fun d0 d1 d2 shape => by cases (word_head _ _ _ _ shape).2
        rw [short]
        simp [rcfindop, rcpeek, bind, Except.bind, first, newline]
    | cons c1 cs =>
        by_cases second : isalpha c1 = true ∧ rctable [toupper c0, toupper c1] = true
        · cases cs with
          | nil =>
              have short : found [c0, c1] = .ok none := found_none _ fun d0 d1 d2 shape => by
                cases (word_head _ _ _ _ (word_head _ _ _ _ shape).2).2
              rw [short]
              simp [rcfindop, rcpeek, bind, Except.bind, first, second, newline]
          | cons c2 cs =>
              by_cases third : isalpha c2 = true
              · have three := fun ended => word_third c0 c1 c2 cs ended (alpha_solid c0 alpha) (alpha_solid c1 second.1) (alpha_solid c2 third)
                cases cs with
                | nil =>
                    rw [found_three _ c0 c1 c2 (three rfl) second.1 third second.2]
                    exact rcfindop_three c0 c1 c2 '\n' rest first second third ends
                | cons c3 cs =>
                    cases blank : isspace c3 with
                    | true =>
                        rw [found_three _ c0 c1 c2 (three (word_blank c3 cs blank)) second.1 third second.2]
                        exact rcfindop_three c0 c1 c2 c3 (cs ++ '\n' :: rest) first second third blank
                    | false =>
                        have long : found (c0 :: c1 :: c2 :: c3 :: cs) = .ok none := found_none _ fun d0 d1 d2 shape => by
                          have after := (word_head _ _ _ _ (word_head _ _ _ _ (word_head _ _ _ _ shape).2).2).2
                          rw [word_solid c3 cs blank] at after
                          cases after
                        rw [long]
                        simp [rcfindop, rcpeek, bind, Except.bind, first, second, third, blank]
              · have other : found (c0 :: c1 :: c2 :: cs) = .ok none := found_none _ fun d0 d1 d2 shape _ two => by
                  have same := (word_head _ _ _ _ (word_head _ _ _ _ (word_head _ _ _ _ shape).2).2).1
                  exact absurd (same ▸ two) third
                rw [other]
                simp [rcfindop, rcpeek, bind, Except.bind, first, second, third]
        · have other : found (c0 :: c1 :: cs) = .ok none := found_none _ fun d0 d1 d2 shape one _ => by
            obtain ⟨rfl, later⟩ := word_head _ _ _ _ shape
            obtain ⟨rfl, -⟩ := word_head _ _ _ _ later
            exact Bool.eq_false_iff.mpr fun table => second ⟨one, table⟩
          rw [other]
          simp [rcfindop, rcpeek, bind, Except.bind, first, second]
  · have other : found (c0 :: cs) = .ok none := found_none _ fun d0 d1 d2 shape _ _ => by
      obtain ⟨rfl, -⟩ := word_head _ _ _ _ shape
      exact Bool.eq_false_iff.mpr fun table => first (table_first _ _ table)
    rw [other]
    simp [rcfindop, rcpeek, bind, Except.bind, first]

theorem found_named (text : List Char) (op : Opcode) (named : rcoptab.lookup ((word text).map toupper) = some op) :
    found text = .ok (some op) := by
  unfold found
  rw [named]

theorem solid_skip (c : Char) (cs : List Char) (solid : isspace c = false) : rcskipwhile isspace (c :: cs) = .ok (c :: cs) := by
  rw [rcskipwhile, if_neg (by rw [solid]; exact Bool.false_ne_true)]

theorem rcparse_found (c : Char) (cs : List Char) (op : Opcode) (d : Char) (ds : List Char) (alpha : isalpha c = true)
    (finds : rcfindop (c :: cs) = .ok (some op)) (behind : rcskipwhile isalpha (c :: cs) = .ok (d :: ds)) (blank : isspace d = true) :
    rcparse (c :: cs) = rctail op (d :: ds) := by
  have more : d ≠ '\x00' := by
    rintro rfl
    cases blank
  unfold rcparse rctail
  simp only [solid_skip c cs (alpha_solid c alpha), bind, Except.bind, rcpeek, alpha, if_true, finds, behind, if_neg more]

-- A line with a registered name goes on behind it.
theorem rcparse_named (c : Char) (cs rest : List Char) (op : Opcode) (alpha : isalpha c = true)
    (named : rcoptab.lookup ((word (c :: cs)).map toupper) = some op) :
    rcparse (c :: cs ++ '\n' :: rest) = rctail op ((c :: cs).drop 3 ++ '\n' :: rest) := by
  obtain ⟨c0, c1, c2, shape, -, one, two, -⟩ := named_word _ op named
  have finds := rcfindop_line c cs rest alpha
  rw [found_named _ op named] at finds
  obtain ⟨rfl, later⟩ := word_head _ _ _ _ shape
  obtain ⟨ds, rfl⟩ : ∃ ds, cs = c1 :: c2 :: ds := by
    cases cs with
    | nil => cases later
    | cons d cs =>
        obtain ⟨rfl, third⟩ := word_head _ _ _ _ later
        cases cs with
        | nil => cases third
        | cons d cs =>
            obtain ⟨rfl, -⟩ := word_head _ _ _ _ third
            exact ⟨cs, rfl⟩
  have ended := (word_head _ _ _ _ (word_head _ _ _ _ later).2).2
  have skips : ∀ e es, isspace e = true → rcskipwhile isalpha (c0 :: c1 :: c2 :: e :: es) = .ok (e :: es) := fun e es blank => by
    have stops : ¬isalpha e = true := fun letter => by
      rw [alpha_solid e letter] at blank
      cases blank
    rw [rcskipwhile, if_pos alpha, rcskipwhile, if_pos one, rcskipwhile, if_pos two, rcskipwhile, if_neg stops]
  cases ds with
  | nil => exact rcparse_found c0 _ op '\n' rest alpha finds (skips '\n' rest rfl) rfl
  | cons e es =>
      have blank : isspace e = true := by
        by_contra solid
        rw [word_solid e es (Bool.eq_false_iff.mpr solid)] at ended
        cases ended
      exact rcparse_found c0 _ op e (es ++ '\n' :: rest) alpha finds (skips e _ blank) blank

theorem rcparse_unnamed (c : Char) (cs rest : List Char) (alpha : isalpha c = true) (unnamed : rcoptab.lookup ((word (c :: cs)).map toupper) = none) :
    rcparse (c :: cs ++ '\n' :: rest) = if halfNamed (c :: cs) then .error .fault else .error (.exit .invalidMnemonic) := by
  have finds := rcfindop_line c cs rest alpha
  unfold found at finds
  rw [unnamed, List.cons_append] at finds
  unfold rcparse
  simp only [List.cons_append, solid_skip c _ (alpha_solid c alpha), bind, Except.bind, rcpeek, alpha, if_true, finds]
  cases halfNamed (c :: cs) <;> rfl

end OsZero.CoreWar
