import RuleGraph.Grammar.Basic

/-!
# What names stand for

Look-up and resolution answer for the same names. They differ in the rule that
they give only under a quiet name that no rule carries: resolution gives the body
of the plain name's rule as it is, look-up gives it the name that was asked for.
-/

namespace RuleGraph

theorem loud?_quiet (name : String) : loud? (quiet name) = some name := by
  rw [loud?, quiet, String.toList_ofList]
  simp [quietSign]

theorem eq_quiet_of_loud? {name plain : String} (h : loud? name = some plain) :
    name = quiet plain := by
  unfold loud? at h
  split at h
  · cases h
  · rename_i c rest hname
    split at h
    · rename_i hc
      rw [← Option.some.inj h, quiet, String.toList_ofList, ← hc, ← hname,
        String.ofList_toList]
    · cases h

theorem loud?_of_isQuiet {name : String} (h : isQuiet name = false) :
    loud? name = none := by
  unfold loud?
  split
  · rfl
  · rename_i c rest hname
    rw [isQuiet, hname] at h
    rw [if_neg fun hc => by simp [hc] at h]

theorem quiet_ne_empty (name : String) : quiet name ≠ "" := by
  intro h
  have hloud := congrArg loud? h
  rw [loud?_quiet] at hloud
  cases hloud

theorem ne_quiet {plain : String} (h : isQuiet plain = false) (name : String) :
    plain ≠ quiet name := by
  rintro rfl
  rw [isQuiet, quiet, String.toList_ofList] at h
  simp at h

namespace Grammar

variable {g : Grammar} {name : String} {r : Rule}

theorem name_of_named? (h : g.named? name = some r) : r.name = name := by
  rw [named?] at h
  split at h
  · cases h
  · have hname := List.find?_some h
    exact beq_iff_eq.mp hname

theorem mem_of_named? (h : g.named? name = some r) : r ∈ g.rules := by
  rw [named?] at h
  split at h
  · cases h
  · exact List.mem_of_find?_eq_some h

theorem resolve?_eq (g : Grammar) (name : String) :
    g.resolve? name = (g.named? name).or ((g.loudRule? name).map Rule.body) := by
  unfold resolve?
  cases g.named? name <;> rfl

theorem resolve?_of_named? (h : g.named? name = some r) : g.resolve? name = some r := by
  rw [resolve?, h]

/-- A quiet name that no rule carries stands for the body of the plain one. -/
theorem resolve?_quiet (hfound : g.named? name = some r)
    (hquiet : ∀ r ∈ g.rules, r.name ≠ quiet name) :
    g.resolve? (quiet name) = some r.body := by
  have hnone : g.named? (quiet name) = none := by
    rw [named?, if_neg (quiet_ne_empty name), List.find?_eq_none]
    exact fun r hr heq => hquiet r hr (beq_iff_eq.mp heq)
  rw [resolve?, hnone, loudRule?, loud?_quiet]
  simp [hfound]

/-- What a name stands for is a declared rule or the body of one. -/
theorem exists_rule_of_resolve? (h : g.resolve? name = some r) :
    ∃ rule ∈ g.rules, r = rule ∨ r = rule.body := by
  rw [resolve?] at h
  split at h
  · rename_i rule hrule
    exact ⟨rule, mem_of_named? hrule, .inl (Option.some.inj h).symm⟩
  · obtain ⟨rule, hrule, hbody⟩ := Option.map_eq_some_iff.mp h
    rw [loudRule?, Option.bind_eq_some_iff] at hrule
    obtain ⟨loud, -, hrule⟩ := hrule
    exact ⟨rule, mem_of_named? hrule, .inr hbody.symm⟩

theorem isSome_lookup? (g : Grammar) (name : String) :
    (g.lookup? name).isSome = (g.resolve? name).isSome := by
  rw [lookup?, resolve?]
  split
  · rfl
  · rw [Option.isSome_map, Option.isSome_map]

end Grammar

end RuleGraph
