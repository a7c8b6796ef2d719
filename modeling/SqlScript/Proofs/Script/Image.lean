import SqlScript.Proofs.Grammar.Proper
import SqlScript.Proofs.Script.Compose

/-!
# What sources come to

Exactly the trees whose nodes are all proper, and that need no more depth than there is, are read
from some source (`readSource_image`).
-/

namespace SqlScript

open Grammar

variable {depth : Nat} {trees : List (Statement (Span Unit))}

/-- A source is read as these trees if they are a script of tokens that can be written. -/
theorem readSource_erase_iff :
    (∃ source ss, readSource depth source = .ok ss ∧ ss.map Statement.erase = trees) ↔
      Spellable ScriptPhrase trees ∧ Statement.needAll trees ≤ depth := by
  constructor
  · rintro ⟨source, ss, hread, rfl⟩
    obtain ⟨ts, hts, hss⟩ := readSource_ok_iff.mp hread
    have hkinds : (script depth (kinds ts)).result = .ok (ss.map Statement.erase) := by
      rw [← remark_marked, script_erase_ok_iff]
      exact ⟨ss, readTokens_ok_iff.mp hss, rfl⟩
    obtain ⟨hphrase, hneed⟩ := script_ok_iff.mp hkinds
    refine ⟨⟨kinds ts, hphrase, ?_⟩, hneed⟩
    exact List.forall_mem_map.mpr (Source.writable hts)
  · rintro ⟨⟨I, hphrase, htextual⟩, hneed⟩
    obtain ⟨source, ts, hts, hmap⟩ := exists_source (List.forall_mem_map.mpr htextual)
    have hkinds : kinds ts = I := by
      have hpairs : kinds ts = (ts.map Token.kind).map fun kind => (kind, ()) := by simp [kinds]
      rw [hpairs, hmap, List.map_map]
      exact List.map_id I
    have hread := script_ok_iff.mpr ⟨hphrase, hneed⟩
    rw [← hkinds, ← remark_marked, script_erase_ok_iff] at hread
    obtain ⟨ss, hss, hmap⟩ := hread
    exact ⟨source, ss, readSource_ok_iff.mpr ⟨ts, hts, readTokens_ok_iff.mpr hss⟩, hmap⟩

/-- Trees are what some source comes to if and only if each of their nodes is one that text can be
read as, and they are not deeper than the limit. -/
theorem readSource_image (depth : Nat) (trees : List (Statement (Span Unit))) :
    (∃ source ss, readSource depth source = .ok ss ∧ ss.map Statement.erase = trees) ↔
      (∀ s ∈ trees, ∀ n, (Node.statement s).Within n → n.Proper) ∧
        Statement.needAll trees ≤ depth := by
  rw [readSource_erase_iff]
  refine and_congr_left fun _ => ⟨?_, spellable_script⟩
  rintro ⟨I, hphrase, htextual⟩
  exact hphrase.sound htextual

end SqlScript
