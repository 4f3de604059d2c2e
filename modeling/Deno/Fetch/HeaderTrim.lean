import Deno.Fetch.HeaderSplit

/-!
# Trimming a header value

The regular expression that takes the whitespace from a value matches within one line only.
-/

namespace Deno.Fetch

open Core List

/-- There is no whitespace at the ends. -/
def Bare (s : JsString) : Prop :=
  isHttpWhitespace s.head? = false ∧ isHttpWhitespace s.getLast? = false

/-- The longest part of a string without whitespace at its ends. -/
structure Trims (s t : JsString) : Prop where
  part : t <:+: s
  bare : Bare t
  longest {u : JsString} : u <:+: s → Bare u → u.length ≤ t.length

variable {s : JsString}

lemma between_trims (s : JsString) : Trims s (between httpWhitespace s) where
  part := between_part
  bare := by
    constructor
    · have hhead := head?_dropWhile_not (regexMatcher httpWhitespace) s
      unfold between stripPrefix
      cases hs : s.dropWhile (regexMatcher httpWhitespace) with
      | nil => rfl
      | cons c rest =>
        rw [hs] at hhead
        rw [← nil_append (c :: rest), stripSuffix_append_cons (ne_true_of_eq_false hhead)]
        exact hhead
    · by_cases hne : between httpWhitespace s = []
      · rw [hne]
        rfl
      · rw [getLast?_eq_getLast_of_ne_nil hne]
        exact eq_false_of_ne_true (rdropWhile_last_not _ _ hne)
  longest {u} hu hbare := by
    obtain ⟨x, y, rfl⟩ := hu
    cases u with
    | nil => exact Nat.zero_le _
    | cons c u =>
      rw [append_assoc, cons_append, between_append_cons (ne_true_of_eq_false hbare.1)]
      rcases eq_nil_or_concat' u with rfl | ⟨u, d, rfl⟩
      · simp only [length_append, length_cons, length_nil]
        omega
      · have hd : isHttpWhitespace (some d) = false := by
          have hlast := hbare.2
          rwa [← cons_append, getLast?_concat] at hlast
        rw [append_assoc, singleton_append, stripSuffix_append_cons (ne_true_of_eq_false hd)]
        simp only [length_append, length_cons, length_nil]
        omega

lemma httpTrim_of_bare (h : Bare s) : httpTrim s = s := by
  simp [httpTrim, h.1, h.2]

/-- Trimming is right if there is nothing to trim or one line is left, and the value that is checked
and stored is what trimming gives. -/
theorem httpTrim_trims_iff (s : JsString) :
    (Trims s (httpTrim s) ↔ Bare s ∨ (between httpWhitespace s).all isDot) ∧
      ∀ (list : HeaderList) (name : HeaderName), appendHeader ⟨list, .none, none⟩ name.text s =
        if checkForInvalidValueChars (httpTrim s) then
          .ok ⟨list ++ [(storedName list name.text, httpTrim s)], .none, none⟩
        else .error (typeError "Header value is not valid.") := by
  refine ⟨⟨fun h => ?_, ?_⟩, fun list name => ?_⟩
  · by_contra hnot
    obtain ⟨hbare, hline⟩ := not_or.mp hnot
    have hnil : httpTrim s = [] := by
      rw [httpTrim, if_neg hline, if_neg]
      simpa [Bare] using hbare
    rw [hnil] at h
    have hlength := h.longest between_part (between_trims s).bare
    rw [length_nil, Nat.le_zero, length_eq_zero_iff] at hlength
    exact hline (by rw [hlength]; rfl)
  · rintro (hbare | hline)
    · rw [httpTrim_of_bare hbare]
      exact ⟨infix_rfl, hbare, fun hu _ => hu.length_le⟩
    · rw [httpTrim_eq hline]
      exact between_trims s
  · have hname : checkHeaderNameForHttpTokenCodePoint name.text := name.token
    cases hvalue : checkForInvalidValueChars (httpTrim s) <;>
      simp [appendHeader, Headers.check, normalizeHeaderValue, hname, hvalue, bind, Except.bind,
        pure, Except.pure]

/-- A value with an inner line break is stored as an empty one. -/
theorem appendHeader_line_break : ¬checkForInvalidValueChars (between httpWhitespace (js " a\nb")) ∧
      appendHeader {} (js "x") (js " a\nb") = .ok ⟨[(js "x", [])], .none, none⟩ := by
  decide

end Deno.Fetch
