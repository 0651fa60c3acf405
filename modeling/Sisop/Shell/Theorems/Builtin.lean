import Sisop.Shell.Builtin
import Sisop.Shell.Theorems.Words

namespace Shell

-- What the words of a line say.
def chosen (home : Option (List Char)) (s : List Char) : Builtin :=
  match words s with
  | []      => .nothing
  | w :: ws =>
    if w = ['c', 'd'] then .chdir (ws.head?.or home)
    else if w = ['e', 'x', 'i', 't'] then .exit
    else if w = ['p', 'w', 'd'] then .pwd
    else .command

-- A line without words is empty, the directory of a cd has no /, and an exit or a pwd is all of the line.
def Plain (s : List Char) : Prop :=
  match words s with
  | []      => s = []
  | w :: ws =>
    if w = ['c', 'd'] then ∀ dir ∈ ws.head?, '/' ∉ dir
    else if w = ['e', 'x', 'i', 't'] ∨ w = ['p', 'w', 'd'] then s = w
    else True

variable {home : Option (List Char)} {s w rest : List Char}

theorem words_spaces : words (s.dropWhile (· = SPACE)) = words s := by
  induction s
  case nil => rfl
  case cons c s ih =>
    by_cases hc : c = SPACE
    · rw [List.dropWhile_cons_of_pos (by simp [hc]), ih, words_eq, words_eq, tokens, if_pos hc]
      simp
    · rw [List.dropWhile_cons_of_neg (by simp [hc])]

theorem words_cons (hs : s ≠ []) (hc : s.head? ≠ some SPACE) :
    words s = getToken s :: words ((s.drop (getToken s).length).drop 1) := by
  have hne : getToken s ≠ [] := by
    obtain ⟨c, s, rfl⟩ := List.exists_cons_of_ne_nil hs
    have hc : c ≠ SPACE := by simpa using hc
    simp [getToken, hc]
  rw [words_eq, tokens_eq hs, List.filter_cons_of_pos (by simpa using hne), words_eq]

theorem strtok_none (h : strtok s = none) : words s = [] := by
  unfold strtok at h
  simp only at h
  split at h
  case isTrue he =>
    rw [← words_spaces, he]
    rfl
  case isFalse => cases h

theorem strtok_some (h : strtok s = some (w, rest)) : words s = w :: words rest := by
  unfold strtok at h
  simp only at h
  split at h
  case isTrue => cases h
  case isFalse hne =>
    cases h
    rw [← words_spaces]
    refine words_cons hne fun hc => ?_
    have hn := List.head?_dropWhile_not (· = SPACE) s
    rw [hc] at hn
    simp at hn

theorem erase_eq_self : removerCaracter w '/' = w ↔ '/' ∉ w := by
  rw [removerCaracter]
  constructor
  case mp =>
    intro h hm
    have hl := List.length_erase_of_mem hm
    rw [h] at hl
    have := List.length_pos_of_mem hm
    omega
  case mpr => exact List.erase_of_not_mem

-- A line that starts with another word than cd
theorem runCmd_other (hs : s ≠ []) (h : strtok s = some (w, rest)) (hw : w ≠ ['c', 'd']) :
    runCmd home s = if exitShell s then .exit else if pwd s then .pwd else .command := by
  simp [runCmd, cd, hs, h, hw]

-- `run_cmd` does what the words of the line say if and only if the line is plain.
theorem run_cmd_chosen_iff : runCmd home s = chosen home s ↔ Plain s := by
  by_cases hs : s = []
  · subst hs
    exact iff_of_true rfl rfl
  cases ht : strtok s
  case none =>
    have hw := strtok_none ht
    have hr : runCmd home s = .fails := by simp [runCmd, cd, hs, ht]
    simp [hr, chosen, Plain, hw, hs]
  case some r =>
    obtain ⟨w, rest⟩ := r
    have hw := strtok_some ht
    by_cases hcd : w = ['c', 'd']
    case pos =>
      cases hr : strtok rest
      case none =>
        have hrun : runCmd home s = .chdir home := by simp [runCmd, cd, hs, ht, hcd, hr]
        simp [hrun, chosen, Plain, hw, hcd, strtok_none hr]
      case some r =>
        obtain ⟨dir, rest'⟩ := r
        have hrun : runCmd home s = .chdir (removerCaracter dir '/') := by
          simp [runCmd, cd, hs, ht, hcd, hr]
        simp [hrun, chosen, Plain, hw, hcd, strtok_some hr, erase_eq_self]
    case neg =>
      have hexit : s = ['e', 'x', 'i', 't'] → w = ['e', 'x', 'i', 't'] := by
        rintro rfl
        have hl : words ['e', 'x', 'i', 't'] = [['e', 'x', 'i', 't']] := by decide
        exact (List.cons.inj (hw.symm.trans hl)).1
      have hpwd : s = ['p', 'w', 'd'] → w = ['p', 'w', 'd'] := by
        rintro rfl
        have hl : words ['p', 'w', 'd'] = [['p', 'w', 'd']] := by decide
        exact (List.cons.inj (hw.symm.trans hl)).1
      rw [runCmd_other hs ht hcd]
      simp only [chosen, Plain, hw, hcd, if_false, exitShell, pwd, decide_eq_true_eq]
      by_cases he : w = ['e', 'x', 'i', 't']
      · by_cases hse : s = ['e', 'x', 'i', 't']
        · simp [he, hse]
        · simp only [he, hse, if_false, if_true, true_or]
          split <;> simp
      · by_cases hp : w = ['p', 'w', 'd']
        · by_cases hsp : s = ['p', 'w', 'd']
          · simp [hp, hsp]
          · have hse : s ≠ ['e', 'x', 'i', 't'] := fun h => he (hexit h)
            simp [hp, hsp, hse]
        · have hse : s ≠ ['e', 'x', 'i', 't'] := fun h => he (hexit h)
          have hsp : s ≠ ['p', 'w', 'd'] := fun h => hp (hpwd h)
          simp [he, hp, hse, hsp]

-- "cd /bin"
theorem not_run_cmd_chosen : ¬∀ (home : Option (List Char)) (s : List Char),
    runCmd home s = chosen home s := by
  intro hall
  have h := hall none ['c', 'd', ' ', '/', 'b', 'i', 'n']
  exact absurd h (by decide)

end Shell
