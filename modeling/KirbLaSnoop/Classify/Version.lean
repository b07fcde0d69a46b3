import Mathlib
import KirbLaSnoop.Classify.Hello

/-!
# The version of a hello

The version that a hint begins with is the greatest of the offered ones that
are not GREASE, and of the legacy field. The legacy field shows when it is
greater and has another name.
-/

namespace KirbLaSnoop

namespace Classify

/-- The hint for `d` begins with the name of `v`. -/
def NamesVersion (d : List UInt8) (v : UInt16) : Prop :=
  ∃ rest, tls d = some (tlsVersion v ++ " ClientHello" ++ rest)

def versionNames : List String := ["SSL 3.0", "TLS 1.0", "TLS 1.1", "TLS 1.2", "TLS 1.3", "TLS ?"]

theorem tlsVersion_mem (v : UInt16) : tlsVersion v ∈ versionNames := by
  unfold tlsVersion versionNames
  split_ifs <;> simp

/-- A hint begins with one name only. -/
theorem name_unique {s t rest rest' : String} (hs : s ∈ versionNames) (ht : t ∈ versionNames)
    (h : s ++ (" ClientHello" ++ rest) = t ++ (" ClientHello" ++ rest')) : s = t := by
  -- the names have five or seven characters, and differ within seven of the line
  have hall : ∀ s ∈ versionNames, ∀ t ∈ versionNames,
      (s ++ " ClientHello").toList.take 7 = (t ++ " ClientHello").toList.take 7 → s = t := by
    decide +kernel
  have hlong : ∀ s ∈ versionNames, 7 ≤ (s ++ " ClientHello").toList.length := by decide +kernel
  refine hall s hs t ht ?_
  have hchars := congrArg (fun s : String => s.toList.take 7) h
  simp only [← String.append_assoc] at hchars
  simp only [String.toList_append] at hchars hlong ⊢
  rw [List.take_append_of_le_length (hlong s hs), List.take_append_of_le_length (hlong t ht)]
    at hchars
  exact hchars

namespace ClientHello

theorem namesVersion_iff (h : ClientHello) (trailing : List UInt8) (v : UInt16) :
    NamesVersion (h.encode ++ trailing) v ↔
      tlsVersion (h.versions.foldl max h.legacy) = tlsVersion v := by
  unfold NamesVersion
  rw [tls_eq_describe, Hello.describe, seen_supportedMax]
  constructor
  · rintro ⟨rest, hline⟩
    rw [Option.some.injEq] at hline
    simp only [String.append_assoc] at hline
    exact name_unique (tlsVersion_mem _) (tlsVersion_mem _) hline
  · intro hname
    rw [hname]
    simp only [String.append_assoc]
    exact ⟨_, rfl⟩

/-- The hint names the greatest offered version, or the legacy one if the
extension is not there. -/
def ReportsVersion (h : ClientHello) (d : List UInt8) : Prop :=
  (∀ v, IsGreatest {w | w ∈ h.versions} v → NamesVersion d v) ∧
    (h.extensions.findSome? Extension.versions? = none → NamesVersion d h.legacy)

theorem foldl_max (versions : List UInt16) (best : UInt16) :
    best ≤ versions.foldl max best ∧ (∀ w ∈ versions, w ≤ versions.foldl max best) ∧
      (versions.foldl max best = best ∨ versions.foldl max best ∈ versions) := by
  induction versions generalizing best with
  | nil => exact ⟨UInt16.le_refl best, List.forall_mem_nil _, Or.inl rfl⟩
  | cons w versions ih =>
      obtain ⟨hbest, hle, hmem⟩ := ih (max best w)
      have hmax : max best w = if best ≤ w then w else best := rfl
      have hl : best ≤ max best w ∧ w ≤ max best w := by
        rw [hmax]
        split_ifs with h
        · exact ⟨h, UInt16.le_refl w⟩
        · exact ⟨UInt16.le_refl best, UInt16.le_of_lt (UInt16.not_le.mp h)⟩
      have hr : max best w = best ∨ max best w = w := by
        rw [hmax]
        split_ifs
        · exact Or.inr rfl
        · exact Or.inl rfl
      rw [List.foldl_cons]
      refine ⟨UInt16.le_trans hl.1 hbest, ?_, ?_⟩
      · exact List.forall_mem_cons.mpr ⟨UInt16.le_trans hl.2 hbest, hle⟩
      · rcases hmem with heq | hin
        · rw [heq]
          refine hr.imp_right fun h => ?_
          rw [h]
          exact List.mem_cons_self
        · exact Or.inr (List.mem_cons_of_mem _ hin)

theorem foldl_max_eq {versions : List UInt16} {v : UInt16}
    (hv : IsGreatest {w | w ∈ versions} v) (best : UInt16) :
    versions.foldl max best = if best ≤ v then v else best := by
  obtain ⟨hbest, hle, hmem⟩ := foldl_max versions best
  have hgreat := hle v hv.1
  split_ifs with h
  · refine UInt16.le_antisymm ?_ hgreat
    rcases hmem with heq | hin
    · rw [heq]
      exact h
    · exact hv.2 hin
  · rcases hmem with heq | hin
    · exact heq
    · exact absurd (UInt16.le_trans hbest (hv.2 hin)) h

/-- The version is reported right unless the legacy field is greater than
every offered version and has a name of its own. -/
theorem reportsVersion_iff (h : ClientHello) (trailing : List UInt8) :
    h.ReportsVersion (h.encode ++ trailing) ↔
      ∀ v, IsGreatest {w | w ∈ h.versions} v →
        h.legacy ≤ v ∨ tlsVersion h.legacy = tlsVersion v := by
  unfold ReportsVersion
  simp only [namesVersion_iff]
  constructor
  · rintro ⟨hreports, -⟩ v hv
    have hname := hreports v hv
    rw [foldl_max_eq hv] at hname
    by_cases hle : h.legacy ≤ v
    · exact Or.inl hle
    · rw [if_neg hle] at hname
      exact Or.inr hname
  · intro hlegacy
    refine ⟨fun v hv => ?_, fun habsent => ?_⟩
    · rw [foldl_max_eq hv]
      split_ifs with hle
      · rfl
      · exact (hlegacy v hv).resolve_left hle
    · rw [versions, habsent]
      rfl

/-- A hello that offers TLS 1.1 under the legacy version of TLS 1.2. -/
def downgraded : ClientHello :=
  { plain with
    legacy := 0x0303
    extensions := [.supportedVersions [0x0a0a, 0x0302]]
    fits := by
      intro e he
      obtain rfl := List.mem_singleton.mp he
      change 2 * 2 < 256
      decide
    block_fits := by decide
    distinct := by decide }

theorem not_reportsVersion :
    ¬∀ (h : ClientHello) (trailing : List UInt8), h.ReportsVersion (h.encode ++ trailing) := by
  intro hall
  have hgreatest : IsGreatest {w | w ∈ downgraded.versions} 0x0302 := by
    have hversions : downgraded.versions = [0x0302] := by decide
    rw [hversions]
    exact ⟨List.mem_singleton_self _, fun w hw => List.mem_singleton.mp hw ▸ UInt16.le_refl w⟩
  have hname := (hall downgraded []).1 _ hgreatest
  rw [namesVersion_iff] at hname
  revert hname
  decide

end ClientHello

end Classify

end KirbLaSnoop
