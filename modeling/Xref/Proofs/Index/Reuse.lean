import Xref.Proofs.Index.Disclosure

/-!
# Soundness of reuse

Results taken over are right exactly when the calls still resolve to what they did, and the trails
ensure it for every edit that discloses what it changes. A module that passes a name on from
elsewhere can be redirected without disclosing it: then a stale result is taken over.
-/

namespace Xref.Index

open Xref.Small

section

variable {outlines : List Outline} {policy : Policy} {t₀ t₁ : Token} {m₀ m₁ : Made} {e : Edit}

/-- An index with one file changed agrees with the index of the new files, in what it takes over and
as it is saved, exactly when every call taken over resolves to what it did before the change. When
the edit discloses what it changes, every call taken over does. -/
theorem apply_agrees_with_build (h₀ : build outlines policy t₀ = .ok m₀)
    (h₁ : e.apply m₀.index t₁ = .ok m₁) :
    (((∀ c ∈ m₁.index.calls, ∀ s ws, m₀.index.takenOver e m₁.index.hierarchy c = some (s, ws) →
        ∃ s', m₁.index.resolver.resolve c = .ok (s', ws) ∧ SameOutcome s s') ∧
      ∃ m₂, build (e.files outlines) policy none = .ok m₂ ∧ m₁.index.toData = m₂.index.toData ∧
        m₁.index.toText = m₂.index.toText) ↔
      ∀ c ∈ m₁.index.calls, (m₀.index.takenOver e m₁.index.hierarchy c).isSome →
        m₀.index.Keeps m₁.index c) ∧
    (e.Discloses m₀.index m₁.index →
      ∀ c ∈ m₁.index.calls, (m₀.index.takenOver e m₁.index.hierarchy c).isSome →
        m₀.index.Keeps m₁.index c) := by
  refine ⟨⟨?_, fun h => ⟨fun c hc s ws ht => ?_, ?_⟩⟩,
    fun hd c hc => keeps_of_discloses h₀ h₁ hd hc⟩
  · rintro ⟨hsound, m₂, h₂, hdata, _⟩ c hc htaken
    obtain ⟨⟨s, ws⟩, ht⟩ := Option.isSome_iff_exists.mp htaken
    obtain ⟨s', hresolve, hsame⟩ := hsound c hc s ws ht
    exact keeps_of_saved h₀ h₁ h₂ hdata ht hresolve hsame
  · obtain ⟨_, c₀, hc₀, hresolve₀⟩ := exists_lastCall_of_takenOver h₀ ht
    obtain ⟨s', hresolve, houtcome, _⟩ := (h c hc (by rw [ht]; rfl)).exists_resolve hc₀ hresolve₀
    exact ⟨s', hresolve, houtcome⟩
  · obtain ⟨m₂, h₂⟩ := exists_build_of_apply h₀ h₁ (exists_resolve_of_keeps h₀ h₁ h)
    have halike := alike_of_apply h₀ h₁ h₂
    have hdata : m₁.index.toData = m₂.index.toData :=
      toData_congr (congrArg Resolver.catalog halike) (congrArg Resolver.hierarchy halike)
        (saved_sites_of_keeps h₀ h₁ h₂ h)
    exact ⟨m₂, h₂, hdata, congrArg Json.pretty hdata⟩

end

/-! ## A name passed on -/

/-- A file that calls a function imported from a second file, which imports it from a third; a
fourth file defines a function of that name too. -/
def passingOn : List Outline :=
  [file "a.py" "a" [importItem "import" "b" "f", callItem "call" "f"],
   file "b.py" "b" [importItem "import" "c" "f"],
   file "c.py" "c" [functionItem "f" "f" false []],
   file "d.py" "d" [functionItem "f" "f" false []]]

/-- The second file imports the function from the fourth. -/
def redirection : Edit :=
  .update (file "b.py" "b" [importItem "import" "d" "f"])

/-- A fifth file comes with a function of another name. -/
def addition : Edit :=
  .update (file "e.py" "e" [functionItem "g" "g" false []])

def targetsOf (m : Made) : Option (List DefId) :=
  (m.index.sites.get? "a.py#call").map (·.targets)

/-- The call is taken over with the function of the third file, while the index of the new files has
that of the fourth. -/
theorem apply_keeps_stale_target :
    ∃ m₀ m₁ m₂, build passingOn .standard none = .ok m₀ ∧
      redirection.apply m₀.index none = .ok m₁ ∧
      build (redirection.files passingOn) .standard none = .ok m₂ ∧
      m₁.reused = ["a.py#call"] ∧ targetsOf m₁ = some ["c.py::c.f"] ∧
      targetsOf m₂ = some ["d.py::d.f"] := by
  have hfresh : (build (redirection.files passingOn) .standard none).toOption.any
      (fun m₂ => targetsOf m₂ = some ["d.py::d.f"]) := by
    decide +kernel
  have hchanged : (build passingOn .standard none).toOption.any (fun m₀ =>
      (redirection.apply m₀.index none).toOption.any fun m₁ =>
        m₁.reused = ["a.py#call"] ∧ targetsOf m₁ = some ["c.py::c.f"]) := by
    decide +kernel
  obtain ⟨m₂, h₂, htargets₂⟩ := exists_of_any hfresh
  obtain ⟨m₀, h₀, hchanged⟩ := exists_of_any hchanged
  obtain ⟨m₁, h₁, htargets₁⟩ := exists_of_any hchanged
  obtain ⟨hreused, htargets₁⟩ := of_decide_eq_true htargets₁
  exact ⟨m₀, m₁, m₂, h₀, h₁, h₂, hreused, htargets₁, of_decide_eq_true htargets₂⟩

/-- Where a fifth file comes with a function of another name, the edit discloses what it changes.
The call is taken over, and the index is saved as that of the new files. -/
theorem apply_agrees_on_addition :
    ∃ m₀ m₁ m₂, build passingOn .standard none = .ok m₀ ∧
      addition.apply m₀.index none = .ok m₁ ∧ addition.Discloses m₀.index m₁.index ∧
      m₁.reused = ["a.py#call"] ∧ build (addition.files passingOn) .standard none = .ok m₂ ∧
      m₁.index.toText = m₂.index.toText := by
  have hchanged : (build passingOn .standard none).toOption.any (fun m₀ =>
      (addition.apply m₀.index none).toOption.any fun m₁ =>
        m₁.reused = ["a.py#call"] ∧ addition.Adds m₀.index m₁.index) := by
    decide +kernel
  obtain ⟨m₀, h₀, hchanged⟩ := exists_of_any hchanged
  obtain ⟨m₁, h₁, hadds⟩ := exists_of_any hchanged
  obtain ⟨hreused, hadds⟩ := of_decide_eq_true hadds
  obtain ⟨_, _, hx, hy, hb⟩ := exists_beside h₀ h₁ hadds.1
  have hd := hadds.discloses hx hy hb
  have hagrees := apply_agrees_with_build h₀ h₁
  obtain ⟨_, m₂, h₂, _, htext⟩ := hagrees.1.mpr (hagrees.2 hd)
  exact ⟨m₀, m₁, m₂, h₀, h₁, hd, hreused, h₂, htext⟩

end Xref.Index
