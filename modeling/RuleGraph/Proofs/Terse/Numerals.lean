import RuleGraph.Proofs.Terse.Bodies
import RuleGraph.Proofs.Terse.Faults
import RuleGraph.Proofs.Terse.Quoting
import Mathlib.Data.List.Induction
import Mathlib.Data.List.Infix
import Mathlib.Data.Nat.Digits.Defs

/-!
# Numerals are read exactly

A numeral may have any number of digits, and its value is tested at each of them. Since a
value never gets smaller with another digit, this comes to one of two things. Either the
value of the whole numeral fits a word, and then it is what the reader has when the first
byte comes that is no digit. Or there is a first digit at which the value is too large,
and the error names its place. Zeros in front count for nothing either way.

What a digit is worth and what a numeral is worth is said without the reader here, and so
is where a numeral stands: in braces that bound a repetition, or in those of a class.
-/

namespace RuleGraph.Terse

/-! ## Values -/

/-- The digits of base sixteen in order. The first ones are those of base ten. -/
def digitsInOrder : List Char := "0123456789abcdef".toList

/-- What a byte is worth as a digit, letters being large or small. A byte that is no digit
of a base is worth too much for one. -/
def worth (b : UInt8) : Nat :=
  digitsInOrder.idxOf (Char.ofUInt8 b).toLower

/-- The number that digits stand for. -/
def numeralValue (base : Nat) (run : Bytes) : Nat :=
  Nat.ofDigits base (run.map worth).reverse

theorem numeralValue_snoc (base : Nat) (run : Bytes) (b : UInt8) :
    numeralValue base (run ++ [b]) = numeralValue base run * base + worth b := by
  rw [numeralValue, List.map_append, List.reverse_append, List.map_singleton,
    List.reverse_singleton, List.singleton_append, Nat.ofDigits_cons]
  exact (Nat.add_comm _ _).trans (congrArg (· + worth b) (Nat.mul_comm _ _))

theorem numeralValue_le_append {base : Nat} (hbase : 0 < base) (run more : Bytes) :
    numeralValue base run ≤ numeralValue base (run ++ more) := by
  induction more using List.reverseRecOn with
  | nil => rw [List.append_nil]
  | append_singleton more b ih =>
    rw [← List.append_assoc, numeralValue_snoc]
    exact Nat.le_trans ih (Nat.le_add_right_of_le (Nat.le_mul_of_pos_right _ hbase))

/-- Where a value is too large, there is a first digit with which it is. -/
theorem exists_first_excess {base most : Nat} (hbase : 0 < base) {run : Bytes}
    (h : most < numeralValue base run) :
    ∃ front b rest, run = front ++ b :: rest ∧
      (∀ less, less <+: front → numeralValue base less ≤ most) ∧
      most < numeralValue base (front ++ [b]) := by
  induction run using List.reverseRecOn with
  | nil => exact absurd h (Nat.not_lt_zero most)
  | append_singleton run b ih =>
    by_cases hrun : most < numeralValue base run
    · obtain ⟨front, c, rest, rfl, hfront, hc⟩ := ih hrun
      exact ⟨front, c, rest ++ [b], by simp only [List.append_assoc, List.cons_append],
        hfront, hc⟩
    · refine ⟨run, b, [], rfl, ?_, h⟩
      rintro less ⟨more, rfl⟩
      exact Nat.le_trans (numeralValue_le_append hbase less more) (Nat.le_of_not_lt hrun)

/-! ## The two bases -/

/-- How a numeral is written: in base ten as it is, or in base sixteen behind a hash. -/
inductive Radix
  | ten
  | sixteen

namespace Radix

def base : Radix → Nat
  | ten => 10
  | sixteen => 16

def mode : Radix → Mode
  | ten => .decimal
  | sixteen => .hexadecimal

/-- What braces are about to read, or have read, of a numeral. -/
def figure : Radix → Option Nat → Figure
  | ten, none => .idle
  | ten, some value => .decimal value
  | sixteen, value => .hexadecimal value

/-- What has been read of a numeral. It has no value before its first digit. -/
def value? (radix : Radix) : Bytes → Option Nat
  | [] => none
  | run@(_ :: _) => some (numeralValue radix.base run)

theorem base_pos (radix : Radix) : 0 < radix.base := by
  cases radix <;> decide

theorem digitOf?_base (radix : Radix) (b : UInt8) :
    digitOf? radix.base b = if worth b < radix.base then some (worth b) else none := by
  have hall : ∀ n < 256, digitOf? radix.base (UInt8.ofNat n) =
      if worth (UInt8.ofNat n) < radix.base then some (worth (UInt8.ofNat n))
      else none := by
    cases radix <;> decide +kernel
  have hb := hall b.toNat b.toNat_lt
  rwa [UInt8.ofNat_toNat] at hb

theorem value?_of_ne_nil {radix : Radix} {run : Bytes} (h : run ≠ []) :
    radix.value? run = some (numeralValue radix.base run) := by
  cases run with
  | nil => exact absurd rfl h
  | cons b rest => rfl

theorem value?_next (radix : Radix) (run : Bytes) (b : UInt8) :
    (radix.value? run).getD 0 * radix.base + worth b =
      numeralValue radix.base (run ++ [b]) := by
  have hvalue : (radix.value? run).getD 0 = numeralValue radix.base run := by
    cases run <;> rfl
  rw [hvalue, numeralValue_snoc]

end Radix

namespace Braces

variable {limits : Limits} {s : Braces} {radix : Radix} {offset : Nat} {b : UInt8}

theorem idle_digit {d : Nat} (hd : digitOf? 10 b = some d) :
    s.idle offset b = .ok (.going { s with figure := .decimal d }) := by
  rw [idle, sign_of_digitOf? hd]
  dsimp only
  rw [hd]

theorem bind_extend {σ : Type} (mode : Mode) (base value digit : Nat) (next : Nat → σ) :
    (do
      let value ← extend mode base value digit offset b
      return next value) =
      if value * base + digit ≤ maxWord then .ok (next (value * base + digit))
      else .error (.unexpected mode offset b) := by
  unfold extend
  split <;> rfl

/-- A digit is taken as long as the value fits a word. -/
theorem step_digit {value : Option Nat} (hs : s.figure = radix.figure value)
    (hb : worth b < radix.base) :
    s.step limits offset b =
      if value.getD 0 * radix.base + worth b ≤ maxWord then
        .ok (.going { s with
          figure := radix.figure (some (value.getD 0 * radix.base + worth b)) })
      else .error (.unexpected radix.mode offset b) := by
  have hdigit : digitOf? radix.base b = some (worth b) := by
    rw [radix.digitOf?_base, if_pos hb]
  unfold Braces.step
  rw [hs]
  cases radix with
  | ten =>
    have hdigit : digitOf? 10 b = some (worth b) := hdigit
    cases value with
    | none =>
      have hle : 0 * 10 + worth b ≤ maxWord :=
        Nat.le_trans (by omega)
          (Nat.le_trans (Nat.le_of_lt hb) (by decide : 10 ≤ maxWord))
      refine Eq.trans ?_ (if_pos hle).symm
      show s.idle offset b = .ok (.going { s with figure := .decimal (0 * 10 + worth b) })
      rw [idle_digit hdigit, Nat.zero_mul, Nat.zero_add]
    | some value =>
      dsimp only [Radix.figure]
      rw [hdigit]
      exact bind_extend .decimal 10 value (worth b) _
  | sixteen =>
    have hdigit : digitOf? 16 b = some (worth b) := hdigit
    dsimp only [Radix.figure]
    rw [hdigit]
    exact bind_extend .hexadecimal 16 (value.getD 0) (worth b) _

/-- Any other byte ends a numeral and is read for itself. -/
theorem step_behind_digits {value : Nat} (hs : s.figure = radix.figure (some value))
    (hb : radix.base ≤ worth b) :
    s.step limits offset b = (s.set value).step limits offset b := by
  have hdigit : digitOf? radix.base b = none := by
    rw [radix.digitOf?_base, if_neg (Nat.not_lt_of_le hb)]
  unfold Braces.step
  rw [hs, s.set_figure]
  cases radix with
  | ten =>
    have hdigit : digitOf? 10 b = none := hdigit
    dsimp only [Radix.figure]
    rw [hdigit]
  | sixteen =>
    have hdigit : digitOf? 16 b = none := hdigit
    dsimp only [Radix.figure]
    rw [hdigit]

theorem set_opened (s : Braces) (value : Nat) : (s.set value).opened = s.opened := by
  unfold Braces.set
  split <;> rfl

theorem unclosed_set {value : Nat} (hs : s.figure = radix.figure (some value))
    (offset : Nat) : s.unclosed offset = (s.set value).unclosed offset := by
  unfold Braces.unclosed
  rw [hs, s.set_figure, s.set_opened]
  cases radix <;> rfl

end Braces

/-! ## Where a numeral stands -/

/-- Braces bound a repetition in a body, or list a range in a class. -/
inductive Site
  | bound
  | range (opened : Nat) (set : CharSet)

def Site.lexeme : Site → Braces → Lexeme
  | bound, braces => .braces braces
  | range opened set, braces => .brackets ⟨opened, set, .range braces⟩

namespace State

/-- The state in a body in which these braces are being read. -/
def inBraces (s : State) (body : Body) (site : Site) (braces : Braces) : State :=
  s.toBody (body.reading (site.lexeme braces))

/-- The state behind this many more bytes, if nothing else has changed. -/
def behind (s : State) (count : Nat) : State :=
  { s with offset := s.offset + count }

theorem behind_behind (s : State) (m n : Nat) :
    (s.behind m).behind n = s.behind (m + n) :=
  congrArg (fun offset => { s with offset := offset }) (Nat.add_assoc s.offset m n)

/-- What becomes of a byte that was read by braces which were opened at an offset. -/
def afterBraces (s : State) (body : Body) (site : Site) (opened : Nat) :
    Reading Braces (Nat × Nat) → Except GrammarError State
  | .going braces => .ok (s.inBraces body site braces)
  | .done (low, high) =>
    match site with
    | .bound => s.toBody <$> body.suffix opened 0x7B (·.repeated (Bound.between low high))
    | .range start set =>
      let brackets := Brackets.add ⟨start, set, .idle⟩ (CharSet.range low (max high low))
      .ok (s.toBody (body.reading (.brackets brackets)))

variable {limits : Limits} {s : State} {body : Body} {site : Site} {braces : Braces}
  {radix : Radix} {b : UInt8} {run : Bytes}

/-- Braces read for themselves. What they hold is of no interest to the state but for
where they were opened. -/
theorem stepPhase_inBraces : (s.inBraces body site braces).stepPhase limits b =
    braces.step limits s.offset b >>= s.afterBraces body site braces.opened := by
  cases site with
  | bound =>
    show (braces.step limits s.offset b >>= _) = _
    cases braces.step limits s.offset b with
    | error e => rfl
    | ok reading => cases reading <;> rfl
  | range opened set =>
    show ((braces.step limits s.offset b >>= _) >>= _) = _
    cases braces.step limits s.offset b with
    | error e => rfl
    | ok reading => cases reading <;> rfl

theorem step_inBraces : (s.inBraces body site braces).step limits b =
    braces.step limits s.offset b >>= (s.behind 1).afterBraces body site
      braces.opened := by
  rw [step, stepPhase_inBraces]
  cases braces.step limits s.offset b with
  | error e => rfl
  | ok reading =>
    cases reading with
    | going next => rfl
    | done bounds =>
      cases site with
      | bound =>
        show ((_ <$> body.suffix _ _ _) >>= _) = _ <$> body.suffix _ _ _
        cases body.suffix braces.opened 0x7B
          (·.repeated (Bound.between bounds.1 bounds.2)) <;> rfl
      | range opened set => rfl

/-! ## Runs of digits -/

/-- Digits whose value fits are read to the last one. -/
theorem run_digits (hbraces : braces.figure = radix.figure none)
    (hrun : ∀ b ∈ run, worth b < radix.base)
    (hfits : numeralValue radix.base run ≤ maxWord) :
    (s.inBraces body site braces).run limits run =
      .ok ((s.behind run.length).inBraces body site
        { braces with figure := radix.figure (radix.value? run) }) := by
  induction run using List.reverseRecOn with
  | nil =>
    show Except.ok (s.inBraces body site braces) =
      .ok ((s.behind 0).inBraces body site { braces with figure := radix.figure none })
    rw [← hbraces]
    rfl
  | append_singleton run b ih =>
    obtain ⟨hrun, hb⟩ := List.forall_mem_append.mp hrun
    have hle := numeralValue_le_append radix.base_pos run [b]
    have hne : run ++ [b] ≠ [] :=
      List.append_ne_nil_of_right_ne_nil run (List.cons_ne_nil b [])
    rw [run_append, ih hrun (Nat.le_trans hle hfits), Radix.value?_of_ne_nil hne,
      List.length_append, ← behind_behind]
    show [b].foldlM (step limits) _ = _
    rw [List.foldlM_cons, step_inBraces,
      Braces.step_digit rfl (hb b (List.mem_singleton_self b)),
      radix.value?_next, if_pos hfits]
    rfl

/-- The first digit with which the value does not fit is an error. -/
theorem run_excess (hbraces : braces.figure = radix.figure none)
    (hrun : ∀ c ∈ run, worth c < radix.base)
    (hfits : numeralValue radix.base run ≤ maxWord) (hb : worth b < radix.base)
    (hexcess : maxWord < numeralValue radix.base (run ++ [b])) (rest : Bytes) :
    (s.inBraces body site braces).run limits (run ++ b :: rest) =
      .error (.unexpected radix.mode (s.offset + run.length) b) := by
  rw [run_append, run_digits hbraces hrun hfits]
  show (b :: rest).foldlM (step limits) _ = _
  rw [List.foldlM_cons, step_inBraces, Braces.step_digit rfl hb, radix.value?_next,
    if_neg (Nat.not_le_of_lt hexcess)]
  rfl

/-- Behind the digits of a numeral the rest of a source is read with the place filled
in. -/
theorem complete_behind_digits {value : Nat}
    (hbraces : braces.figure = radix.figure (some value)) {rest : Bytes}
    (hrest : ∀ b ∈ rest.head?, radix.base ≤ worth b) :
    (s.inBraces body site braces).complete limits rest =
      (s.inBraces body site (braces.set value)).complete limits rest := by
  cases rest with
  | nil =>
    have hunclosed := Braces.unclosed_set hbraces s.offset
    cases site with
    | bound => exact congrArg Except.error hunclosed
    | range opened set => exact congrArg Except.error hunclosed
  | cons b rest =>
    rw [complete_cons, complete_cons, step_inBraces, step_inBraces,
      Braces.step_behind_digits hbraces (hrest b rfl), braces.set_opened]

/-- As many bytes as have been read, so far is the place of the next one. -/
theorem offset_of_run {filed : List Rule} {source : Bytes}
    (h : (State.start filed).run limits source = .ok s) : s.offset = source.length := by
  have hstart : (State.start filed).Placed [] := ⟨rfl, nofun⟩
  have hends : Ends ((State.start filed).run limits source) (State.Placed source)
      (Settled source) := run_ends hstart
  rw [h] at hends
  exact hends.offset

end State

/-- Where braces are about to read a numeral of some base and digits of that base stand,
as many as there are before anything else, their value decides. If it fits a word, the
reader has it behind the last digit, and what follows is read with the value in its place.
If it does not, there is a first digit with which it does not, and that digit is the
error. -/
theorem numerals_exact {limits : Limits} {filed : List Rule} {before : Bytes} {s : State}
    {body : Body} {site : Site} {braces : Braces} (radix : Radix) (run : Bytes)
    (hbefore : (State.start filed).run limits before = .ok (s.inBraces body site braces))
    (hbraces : braces.figure = radix.figure none) (hne : run ≠ [])
    (hrun : ∀ b ∈ run, worth b < radix.base) :
    s.offset = before.length ∧
      (numeralValue radix.base run ≤ maxWord →
        (State.start filed).run limits (before ++ run) =
          .ok ((s.behind run.length).inBraces body site
            { braces with figure := radix.figure (some (numeralValue radix.base run)) }) ∧
          ∀ rest, (∀ b ∈ rest.head?, radix.base ≤ worth b) →
            compile limits filed (before ++ run ++ rest) =
              ((s.behind run.length).inBraces body site
                (braces.set (numeralValue radix.base run))).complete limits rest) ∧
      (maxWord < numeralValue radix.base run →
        ∃ front b back, run = front ++ b :: back ∧
          (∀ less, less <+: front → numeralValue radix.base less ≤ maxWord) ∧
          maxWord < numeralValue radix.base (front ++ [b]) ∧
          ∀ rest, compile limits filed (before ++ run ++ rest) =
            .error (.unexpected radix.mode (before.length + front.length) b)) := by
  have hoffset : (s.inBraces body site braces).offset = before.length :=
    State.offset_of_run hbefore
  replace hoffset : s.offset = before.length := hoffset
  refine ⟨hoffset, fun hfits => ?_, fun hexcess => ?_⟩
  · have hread : (State.start filed).run limits (before ++ run) =
        .ok ((s.behind run.length).inBraces body site
          { braces with figure :=
            radix.figure (some (numeralValue radix.base run)) }) := by
      rw [State.run_append, hbefore, ← Radix.value?_of_ne_nil hne]
      exact State.run_digits hbraces hrun hfits
    refine ⟨hread, fun rest hrest => ?_⟩
    rw [compile_append hread]
    exact State.complete_behind_digits rfl hrest
  · obtain ⟨front, b, back, rfl, hfront, hb⟩ := exists_first_excess radix.base_pos hexcess
    refine ⟨front, b, back, rfl, hfront, hb, fun rest => ?_⟩
    obtain ⟨hdigits, hdigit, -⟩ : (∀ c ∈ front, worth c < radix.base) ∧
        worth b < radix.base ∧ ∀ c ∈ back, worth c < radix.base := by
      simpa only [List.forall_mem_append, List.forall_mem_cons] using hrun
    rw [List.append_assoc, List.append_assoc, compile_append hbefore, State.complete,
      List.cons_append,
      State.run_excess hbraces hdigits (hfront front (List.prefix_refl front))
        hdigit hb, hoffset]
    rfl

/-- The greatest word in base sixteen, with zeros in front and letters of both kinds, in a
class, and the number after it in base ten, in a bound. -/
theorem numerals_exact_greatest :
    let fits := stringBytes "00fFFfFFff"
    let exceeds := stringBytes "04294967296"
    let lexeme := Lexeme.brackets ⟨4, CharSet.empty, .range ⟨5, maxWord, 0, false, .idle⟩⟩
    let behind : State := ⟨[], CharSet.empty, 17, .body ((Body.start "r").reading lexeme)⟩
    (∀ rest, (∀ b ∈ rest.head?, 16 ≤ worth b) →
      compile Limits.usual [] (stringBytes "r = [\x7b#" ++ fits ++ rest) =
        behind.complete Limits.usual rest) ∧
      ∀ rest, compile Limits.usual [] (stringBytes "r = 'x'\x7b" ++ exceeds ++ rest) =
        .error (.unexpected .decimal 18 ('6').toUInt8) := by
  intro fits exceeds lexeme behind
  constructor
  · have hbefore : (State.start []).run Limits.usual (stringBytes "r = [\x7b#") =
        .ok (State.inBraces ⟨[], CharSet.empty, 7, .between none⟩ (Body.start "r")
          (.range 4 CharSet.empty) ⟨5, 0, 0, false, .hexadecimal none⟩) :=
      eq_ok_of_toOption (by decide +kernel)
    have hvalue : numeralValue 16 fits = maxWord := by decide +kernel
    obtain ⟨-, hfits, -⟩ :=
      numerals_exact .sixteen fits hbefore rfl (by decide) (by decide +kernel)
    obtain ⟨-, hrest⟩ := hfits (Nat.le_of_eq hvalue)
    intro rest hended
    rw [hrest rest hended]
    show State.complete _ (State.inBraces _ _ _ (Braces.set _ (numeralValue 16 fits)))
      rest = _
    rw [hvalue]
    rfl
  · have hbefore : (State.start []).run Limits.usual (stringBytes "r = 'x'\x7b") =
        .ok (State.inBraces ⟨[], CharSet.empty, 8, .between none⟩
          ⟨"r", [], ⟨some (Rule.symbol 'x'), [], []⟩, .idle⟩ .bound
            ⟨7, 0, 0, false, .idle⟩) :=
      eq_ok_of_toOption (by decide +kernel)
    obtain ⟨-, -, hexceeds⟩ :=
      numerals_exact .ten exceeds hbefore rfl (by decide) (by decide +kernel)
    obtain ⟨front, b, back, hsplit, -, hb, herror⟩ := hexceeds (by decide +kernel)
    have honly : ∀ read ∈ exceeds.inits, maxWord < numeralValue 10 read →
        read = stringBytes "0429496729" ++ [('6').toUInt8] := by decide +kernel
    have hread : front ++ [b] ∈ exceeds.inits := by
      rw [List.mem_inits, hsplit]
      exact ⟨back, List.append_assoc front [b] back⟩
    obtain ⟨rfl, hlast⟩ := List.append_inj' (honly _ hread hb) rfl
    cases hlast
    exact herror

end RuleGraph.Terse
