import RuleGraph.Proofs.Shared.Documents
import RuleGraph.Proofs.Shared.Declarations
import RuleGraph.Proofs.Terse.Declarations
import RuleGraph.Proofs.Terse.Growth

/-!
# Both readers agree on a shared source

A shared source is a hosted document and a list of terse declarations at once,
and as either it stands for the same rules. So what is left is that each reader
finds its tree. For the hosted one this holds unless matching goes too deep. For
the terse one it holds under limits that are high enough, and then under any
that are not exceeded.
-/

namespace RuleGraph

namespace Hosted

open Matching

/-- What the grammar takes as a whole is what parsing finds. -/
theorem parse_of_takes {source : Bytes} {forest : List (Stretch Label)}
    (h : Takes metaGrammar (.rule (part .grammar)) 0 source [] (spelled forest))
    (hroom : parse source ≠ .error (.matching (.tooDeep usualLimit))) :
    parse source =
      .ok ⟨source, ⟨(Stretch.listing 0 forest).toArray, []⟩, source.length⟩ := by
  have hmatch : metaGrammar.matchWith usualLimit metaStart source ≠
      .error (.tooDeep usualLimit) := fun hdeep => hroom (by rw [parse, hdeep]; rfl)
  obtain ⟨m, hmeans, hreports⟩ :=
    matchWith_reports metaGrammar usualLimit metaStart source hmatch
  rw [Takes, List.append_nil, Nat.zero_add] at h
  obtain rfl := hmeans.unique h
  rw [Reports] at hreports
  rw [parse, hreports]
  show (if (source.length == source.length) = true then _ else _) = _
  rw [if_pos (beq_self_eq_true _), labelled_spelled]
  rfl

end Hosted

namespace Shared

namespace Source

variable (s : Source)

/-- The hosted reader finds the document that a source is. -/
theorem parse_bytes (hlength : s.bytes.length ≤ maxWord)
    (hroom : Hosted.parse s.bytes ≠ .error (.matching (.tooDeep Matching.usualLimit))) :
    Hosted.parse s.bytes = .ok s.document.parsed := by
  rw [← s.bytes_document] at hlength hroom ⊢
  exact Hosted.parse_of_takes (Hosted.document_found s.clear_document hlength) hroom

theorem rules_bytes (hlength : s.bytes.length ≤ maxWord)
    (hroom : Hosted.parse s.bytes ≠ .error (.matching (.tooDeep Matching.usualLimit))) :
    Hosted.rules s.bytes = .ok s.rules := by
  have hread : Hosted.rulesOf s.document.parsed = .ok s.document.rules :=
    (Hosted.rulesOf_document s.document s.document.parsed rfl rfl).1 s.sound_document
  rw [Hosted.rules, s.parse_bytes hlength hroom]
  show (Hosted.rulesOf s.document.parsed).mapError _ = _
  rw [hread, s.rules_document]
  rfl

theorem written : Terse.Written (declarations s.lines) s.bytes :=
  (spells_lines s.apart).gap (.blanks s.before.all_kind)

/-- The terse reader files the rules if the same limit, and a high one, is set for
everything. -/
theorem compile_uniform {limit : Nat} (h : s.bytes.length < limit) :
    Terse.compile (uniform limit) [] s.bytes = .ok s.rules := by
  have hlines : (Hosted.paddedBytes Line.bytes s.lines).length < limit := by
    rw [Source.bytes, List.length_append] at h
    omega
  have hroom := length_declarations_le s.lines
  exact Terse.Resting.declarations (fits_declarations hlines)
    (rules?_declarations s.lines [])
    (show 0 + (declarations s.lines).length ≤ limit by omega) s.written .between

/-- No limit is a reason for the terse reader to file other rules. -/
theorem compile_bytes (limits : Limits)
    (h : ¬Terse.Exceeds (Terse.compile limits [] s.bytes)) :
    Terse.compile limits [] s.bytes = .ok s.rules :=
  compile_of_uniform (fun _ => s.compile_uniform) limits (.inr h)

/-- The terse and the hosted reader come to the same rules, those that the source
declares, unless one of them gives up for its limits. The hosted one counts the
rounds of a repetition in a word, so the source must not be longer than a word
can tell. -/
theorem readers_agree (limits : Limits) (hlength : s.bytes.length ≤ maxWord)
    (hroom : Hosted.parse s.bytes ≠ .error (.matching (.tooDeep Matching.usualLimit)))
    (hlimits : ¬Terse.Exceeds (Terse.compile limits [] s.bytes)) :
    Terse.compile limits [] s.bytes = .ok s.rules ∧ Hosted.rules s.bytes = .ok s.rules :=
  ⟨s.compile_bytes limits hlimits, s.rules_bytes hlength hroom⟩

end Source

/-- A comment and a rule with something of every kind. -/
theorem readers_agree_sampler :
    let nothing : Hosted.Pad := ⟨[], nofun⟩
    let line : Hosted.Pad := ⟨[0x0A], List.forall_mem_singleton.mpr rfl⟩
    let blank : Hosted.Indent := ⟨[0x20], List.forall_mem_singleton.mpr rfl⟩
    let comment : Line := .comment [0x63] (List.forall_mem_singleton.mpr (by decide))
    let figure : Sequence :=
      .last (.literal ⟨['0'], List.forall_mem_singleton.mpr (by decide)⟩ none)
    let letters : Sequence := .last (.literal ⟨['a', 'b'], by simp⟩ none)
    let group : Element :=
      .group nothing (.more figure blank blank (.last letters)) nothing none (some .plus)
    let reference : Element :=
      .reference ⟨'x', [], by decide, nofun⟩ (some ⟨'y', [], by decide, nofun⟩)
        (some (.between ⟨⟨['2'], 2, nofun, rfl⟩, by decide⟩
          ⟨⟨['3'], 3, nofun, rfl⟩, by decide⟩))
    let body : Sequence :=
      .more group blank nofun (.more (.spacing .mayIndent none) blank nofun
        (.more reference blank nofun (.last .completion)))
    let declaration : Line := .rule ⟨'r', [], by decide, nofun⟩ blank blank (.last body)
    let source : Source := ⟨nothing, [(comment, line), (declaration, line)],
      List.forall_mem_singleton.mpr ⟨0x0A, List.mem_singleton_self _, rfl⟩,
      List.forall_mem_cons.mpr ⟨trivial, List.forall_mem_singleton.mpr
        ⟨⟨⟨trivial, trivial⟩, fun _ => .inr rfl⟩, trivial, trivial, trivial⟩⟩⟩
    let rules := [(Rule.sequence
      [(Rule.selection [Rule.symbol '0', Rule.string ['a', 'b']]).repeated .plus,
        Rule.spacing .mayIndent, ((Rule.reference "x").named "y").repeated ⟨2, 3⟩,
        Rule.completion]).named "r"]
    source.bytes = stringBytes "%c%\nr = ('0' | 'ab')+ , x@y\x7b2-3\x7d ~\n" ∧
      source.bytes.length ≤ maxWord ∧
      Hosted.parse source.bytes ≠ .error (.matching (.tooDeep Matching.usualLimit)) ∧
      ¬Terse.Exceeds (Terse.compile Limits.usual [] source.bytes) ∧
      Terse.compile Limits.usual [] source.bytes = .ok rules ∧
      Hosted.rules source.bytes = .ok rules := by
  intro nothing line blank comment figure letters group reference body declaration
    source rules
  have hlength : source.bytes.length ≤ maxWord := by decide
  have hroom : Hosted.parse source.bytes ≠
      .error (.matching (.tooDeep Matching.usualLimit)) := by
    have hsome : (Hosted.parse source.bytes).toOption.isSome = true := by
      rw [Hosted.parse, Hosted.metaGrammar_eq]
      decide +kernel
    intro h
    rw [h] at hsome
    cases hsome
  have hlimits : ¬Terse.Exceeds (Terse.compile Limits.usual [] source.bytes) := by
    have hsome : (Terse.compile Limits.usual [] source.bytes).toOption.isSome = true := by
      decide +kernel
    rintro ⟨buffer, limit, h⟩
    rw [h] at hsome
    cases hsome
  have h := source.readers_agree Limits.usual hlength hroom hlimits
  exact ⟨rfl, hlength, hroom, hlimits, h.1, h.2⟩

end Shared

end RuleGraph
