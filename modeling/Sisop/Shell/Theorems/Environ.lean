import Sisop.Shell.Exec
import Sisop.Shell.Theorems.Words
import Mathlib.Data.List.Count

namespace Shell

-- What the words <f, >f, 2>f and 2>&1 say.
inductive Redir
  | input (f : List Char)
  | output (f : List Char)
  | error (f : List Char)
  | errorToOutput
deriving DecidableEq

def isName (f : List Char) : Bool := f ≠ [] && '<' ∉ f && '>' ∉ f

def redirOf : List Char → Option Redir
  | '<' :: f        => if isName f then some (.input f) else none
  | '>' :: f        => if isName f then some (.output f) else none
  | '2' :: '>' :: f =>
    if f = ['&', '1'] then some .errorToOutput else if isName f then some (.error f) else none
  | _               => none

-- Whether a word has one of these forms.
def isForm (w : List Char) : Bool := (redirOf w).isSome

-- An assignment: a name, = and a value.
def isAssign (w : List Char) : Bool :=
  (blockContains w '=').isSome && (getEnvironKey w ≠ [] && ['-', '<', '>', '$'].all (· ∉ getEnvironKey w))

-- The assignments before the name of the program, and the program with its arguments.
def assigns (ws : List (List Char)) : List (List Char) :=
  (ws.takeWhile fun w => isAssign w || isForm w).filter isAssign

def args (ws : List (List Char)) : List (List Char) :=
  (ws.dropWhile fun w => isAssign w || isForm w).filter fun w => !isForm w

-- The environment with the assignments, the last one over the others.
def override (env : Env) (ws : List (List Char)) : Env :=
  ws.foldl (fun env w => setenv env (getEnvironKey w) (getEnvironValue w (getEnvironKey w).length)) env

-- The program gets the arguments and the environment that the words of the command say, in every tree that has
-- the command and every environment of the shell.
def Assigned (s : List Char) : Prop :=
  ∀ p : Process, ∃ e, parseExec p.env (s ++ [END_STRING]) = some e ∧ ∀ t p', Reaches t p e p' →
    ∃ q, execCmd (fun _ => true) e p' = some q ∧ q.argv = (args (words s)).map (expandEnvironVar p.env) ∧
      q.process.env = override p.env (assigns (words s))

-- Single spaces, short assignments without redirections, and no - in a value or assignment behind the name of
-- the program.
structure Assignable (s : List Char) : Prop where
  spaces : [] ∉ tokens s
  before : ∀ w ∈ assigns (words s), isEarg w ∧ (getEnvironKey w).length < MAXARGS ∧
    (getEnvironValue w (getEnvironKey w).length).length < MAXARGS
  alone  : assigns (words s) ≠ [] → ∀ w ∈ words s, isRedir w = false
  after  : ∀ w ∈ args (words s), isArg w
  room   : (args (words s)).length < MAXARGS ∧ (assigns (words s)).length ≤ MAXARGS

variable {s w : List Char} {ws : List (List Char)} {env env' : Env} {p p' : Process} {e : ExecCmd} {t : Cmd}

section Words

theorem mem_of_blockContains {x : Char} (h : (blockContains w x).isSome) : x ∈ w := by
  by_contra hn
  rw [blockContains_none hn] at h
  cases h

theorem blockContains_isSome {x : Char} : (blockContains w x).isSome ↔ x ∈ w := by
  constructor
  case mp => exact mem_of_blockContains
  case mpr =>
    intro hm
    obtain ⟨w₁, w₂, rfl, hn⟩ := List.eq_append_cons_of_mem hm
    rw [blockContains_append hn]
    rfl

theorem isRedir_iff : isRedir w ↔ '>' ∈ w ∨ '<' ∈ w := by
  rw [isRedir, Bool.or_eq_true, blockContains_isSome, blockContains_isSome]

theorem isForm_isRedir (h : isForm w) : isRedir w := by
  rw [isRedir_iff]
  unfold isForm redirOf at h
  split at h
  · exact .inr List.mem_cons_self
  · exact .inl List.mem_cons_self
  · exact .inl (List.mem_cons_of_mem _ List.mem_cons_self)
  · cases h

-- The position of the = is the length of the key.
theorem blockContains_key (h : '=' ∈ w) : blockContains w '=' = some (getEnvironKey w).length := by
  obtain ⟨w₁, w₂, rfl, hn⟩ := List.eq_append_cons_of_mem h
  have hk : getEnvironKey (w₁ ++ '=' :: w₂) = w₁ := by
    apply takeWhile_append
    · intro a ha
      simpa using fun (he : a = '=') => hn (he ▸ ha)
    · simp
  rw [blockContains_append hn, hk]

theorem isAssign_dollar (h : w.head? = some '$') : isAssign w = false := by
  obtain ⟨name, rfl⟩ := List.head?_eq_some_iff.mp h
  simp [isAssign, getEnvironKey]

theorem isForm_dollar (h : w.head? = some '$') : isForm w = false := by
  obtain ⟨name, rfl⟩ := List.head?_eq_some_iff.mp h
  rfl

theorem isAssign_not_form (h : isAssign w) : isForm w = false := by
  simp only [isAssign, Bool.and_eq_true, decide_eq_true_eq, List.all_cons, List.all_nil,
    Bool.and_true] at h
  obtain ⟨-, -, -, hlt, hgt, -⟩ := h
  unfold isForm redirOf
  split
  · exact absurd (by simp [getEnvironKey]) hlt
  · exact absurd (by simp [getEnvironKey]) hgt
  · exact absurd (by simp [getEnvironKey]) hgt
  · rfl

-- Every token has a place.
theorem isArg_or : isRedir w ∨ isEarg w ∨ isArg w := by
  unfold isEarg isArg
  cases isRedir w <;> cases isEnvironVar w <;> simp

end Words

section Run

theorem reaches_env (h : Reaches t p e p') : p'.env = p.env := by
  induction h
  case exec => rfl
  case back => rfl
  case left ih => exact ih
  case right ih => exact ih

theorem setEnvironVars_eq (hk : ∀ w ∈ ws, '=' ∈ w) : setEnvironVars ws env =
    if ∀ w ∈ ws, (getEnvironKey w).length < MAXARGS ∧
      (getEnvironValue w (getEnvironKey w).length).length < MAXARGS then some (override env ws)
    else none := by
  induction ws generalizing env
  case nil => simp [setEnvironVars, override]
  case cons w ws ih =>
    rw [setEnvironVars, blockContains_key (hk w List.mem_cons_self)]
    simp only [ih fun w hm => hk w (List.mem_cons_of_mem _ hm), List.forall_mem_cons]
    by_cases hw : (getEnvironKey w).length < MAXARGS ∧
        (getEnvironValue w (getEnvironKey w).length).length < MAXARGS
    · simp [hw, override]
    · simp [hw]

-- A redirection that succeeds changes neither the arguments nor the environment.
theorem caseRedirMd_true : ∃ q, caseRedirMd (fun _ => true) e p = some q ∧ q.argv = e.argv ∧
    q.process.env = p.env := by
  obtain ⟨p₁, h₁, e₁⟩ : ∃ p₁, redirIn (fun _ => true) e p = some p₁ ∧ p₁.env = p.env := by
    unfold redirIn
    split
    · exact ⟨_, rfl, rfl⟩
    · exact ⟨_, rfl, rfl⟩
  obtain ⟨p₂, h₂, e₂⟩ : ∃ p₂, redirOut (fun _ => true) e p₁ = some p₂ ∧ p₂.env = p.env := by
    unfold redirOut
    split
    · exact ⟨_, rfl, e₁⟩
    · exact ⟨_, rfl, e₁⟩
  obtain ⟨p₃, h₃, e₃⟩ : ∃ p₃, redirErr (fun _ => true) e p₂ = some p₃ ∧ p₃.env = p.env := by
    unfold redirErr
    split
    · split
      · exact ⟨_, rfl, e₂⟩
      · exact ⟨_, rfl, e₂⟩
    · exact ⟨_, rfl, e₂⟩
  exact ⟨caseExecCmd e p₃, by simp [caseRedirMd, h₁, h₂, h₃], rfl, e₃⟩

-- The last assignment shows.
theorem override_ne (h : ws ≠ []) : override (fun _ => none) ws ≠ fun _ => none := by
  intro he
  obtain ⟨ws', w, rfl⟩ := (List.eq_nil_or_concat ws).resolve_left h
  rw [List.concat_eq_append, override, List.foldl_append] at he
  have hk := congrFun he (getEnvironKey w)
  simp [setenv] at hk

end Run

section Split

-- The words are those up to the name of the program, and the others.
theorem words_split (ws : List (List Char)) : ∃ pre post, ws = pre ++ post ∧
    (∀ w ∈ pre, isAssign w || isForm w) ∧ assigns ws = pre.filter isAssign ∧
    args ws = post.filter fun w => !isForm w :=
  ⟨_, _, (List.takeWhile_append_dropWhile (p := fun w => isAssign w || isForm w)).symm,
    fun _ hm => List.mem_takeWhile_imp (p := fun w => isAssign w || isForm w) hm, rfl, rfl⟩

theorem isEarg_mem (h : isEarg w) : '=' ∈ w := by
  simp only [isEarg, isEnvironVar, Bool.and_eq_true, Option.any_eq_true] at h
  obtain ⟨-, ⟨_, hb, -⟩, -⟩ := h
  exact mem_of_blockContains (by rw [hb]; rfl)

end Split

-- What the parser does with words that are as they should be.
theorem Assignable.filters (h : Assignable s) : (tokens s).filter isArg = args (words s) ∧
    (tokens s).filter isEarg = assigns (words s) := by
  obtain ⟨pre, post, hw, hpre, ha, hr⟩ := words_split (words s)
  have hb := h.before
  have haf := h.after
  rw [ha] at hb
  rw [hr] at haf
  rw [ha, hr, tokens_words h.spaces, hw, List.filter_append, List.filter_append]
  have hform {w : List Char} (hf : isForm w) : isArg w = false ∧ isEarg w = false :=
    (isRedir_cases w).1 (isForm_isRedir hf)
  have hassign {w : List Char} (hm : w ∈ pre) (hf : isAssign w) : isArg w = false ∧ isEarg w :=
    have he := (hb w (List.mem_filter.mpr ⟨hm, hf⟩)).1
    ⟨(isRedir_cases w).2.1 he, he⟩
  have hpost {w : List Char} (hm : w ∈ post) (hf : isForm w = false) : isArg w ∧ isEarg w = false :=
    have harg := haf w (List.mem_filter.mpr ⟨hm, by simp [hf]⟩)
    ⟨harg, (isRedir_cases w).2.2 harg⟩
  have h₁ : pre.filter isArg = [] := by
    rw [List.filter_eq_nil_iff]
    intro w hm
    rcases Bool.or_eq_true _ _ ▸ hpre w hm with hf | hf
    · simp [(hassign hm hf).1]
    · simp [(hform hf).1]
  have h₂ : post.filter isArg = post.filter fun w => !isForm w := by
    apply List.filter_congr
    intro w hm
    cases hf : isForm w
    case true => simp [(hform hf).1]
    case false => simp [(hpost hm hf).1]
  have h₃ : pre.filter isEarg = pre.filter isAssign := by
    apply List.filter_congr
    intro w hm
    cases hf : isAssign w
    case true => simp [(hassign hm hf).2]
    case false =>
      have hf' : isForm w := by simpa [hf] using hpre w hm
      simp [(hform hf').2]
  have h₄ : post.filter isEarg = [] := by
    rw [List.filter_eq_nil_iff]
    intro w hm
    cases hf : isForm w
    case true => simp [(hform hf).2]
    case false => simp [(hpost hm hf).2]
  rw [h₁, h₂, h₃, h₄, List.nil_append, List.append_nil]
  exact ⟨rfl, rfl⟩

theorem Assignable.assigned (hs : END_STRING ∉ s) (h : Assignable s) : Assigned s := by
  intro p
  obtain ⟨ha, he⟩ := h.filters
  obtain ⟨e, hp⟩ := (parseExec_isSome p.env [] hs).mpr
    ⟨by rw [ha]; exact h.room.1, by rw [he]; exact h.room.2⟩
  obtain ⟨hargv, heargv, htype⟩ := parseExec_argv hs hp
  have hargv : e.argv = (args (words s)).map (expandEnvironVar p.env) := by rw [hargv, ha]; rfl
  have heargv : e.eargv = assigns (words s) := by rw [heargv, he]; rfl
  refine ⟨e, hp, fun t p' ht => ?_⟩
  have henv := reaches_env ht
  cases hr : (tokens s).any isRedir
  case true =>
    rw [hr, if_pos rfl] at htype
    have hnone : assigns (words s) = [] := by
      by_contra hne
      obtain ⟨w, hm, hw⟩ := List.any_eq_true.mp hr
      rw [tokens_words h.spaces] at hm
      rw [h.alone hne w hm] at hw
      cases hw
    obtain ⟨q, hq, hqa, hqe⟩ := caseRedirMd_true (e := e) (p := p')
    refine ⟨q, by rw [execCmd, htype, hq], hqa.trans hargv, ?_⟩
    rw [hqe, henv, hnone]
    rfl
  case false =>
    rw [hr, if_neg (by decide)] at htype
    have hset : setEnvironVars e.eargv p'.env = some (override p.env (assigns (words s))) := by
      rw [heargv, henv, setEnvironVars_eq fun w hm => isEarg_mem (h.before w hm).1,
        if_pos fun w hm => (h.before w hm).2]
    have htype : e.type = .exec := htype
    exact ⟨_, by rw [execCmd, htype, hset]; rfl, hargv, rfl⟩

section Converse

-- An environment in which every variable stands for itself.
def selfEnv : Env := fun name => some ('$' :: name)

def isStatus (w : List Char) : Bool := w.head? = some '$' && w.tail.head? = some '?'

theorem expand_self : expandEnvironVar selfEnv w = if isStatus w then none else some w := by
  by_cases h : w.head? = some '$'
  · obtain ⟨name, rfl⟩ := List.head?_eq_some_iff.mp h
    rw [expand_dollar]
    by_cases hq : name.head? = some '?' <;> simp [isStatus, selfEnv, hq]
  · rw [expand_other h]
    simp [isStatus, h]

variable {ts ts' : List (List Char)}

-- The arguments show which words they come from.
theorem count_self (h : ts.map (expandEnvironVar selfEnv) = ts'.map (expandEnvironVar selfEnv))
    (hw : isStatus w = false) : ts.count w = ts'.count w := by
  have hc (ts : List (List Char)) : (ts.map (expandEnvironVar selfEnv)).count (some w) = ts.count w := by
    rw [List.count, List.countP_map, List.count]
    congr 1
    funext x
    rw [Function.comp_apply, expand_self]
    cases hx : isStatus x
    case true =>
      have hne : x ≠ w := by
        rintro rfl
        rw [hw] at hx
        cases hx
      simp [hne]
    case false => simp
  rw [← hc, h, hc]

theorem count_status (h : ts.map (expandEnvironVar selfEnv) = ts'.map (expandEnvironVar selfEnv)) :
    ts.countP isStatus = ts'.countP isStatus := by
  have hc (ts : List (List Char)) :
      (ts.map (expandEnvironVar selfEnv)).countP Option.isNone = ts.countP isStatus := by
    rw [List.countP_map]
    congr 1
    funext x
    rw [Function.comp_apply, expand_self]
    cases isStatus x <;> rfl
  rw [← hc, h, hc]

theorem isStatus_dollar (h : isStatus w) : w.head? = some '$' := by
  simp only [isStatus, Bool.and_eq_true, decide_eq_true_eq] at h
  exact h.1

-- No word is empty.
theorem nil_notMem_words : [] ∉ words s := by
  rw [words_eq]
  simp

-- If the arguments are right in the environment above, then the words of the arguments are.
theorem args_self (h : ((tokens s).filter isArg).map (expandEnvironVar selfEnv) =
    (args (words s)).map (expandEnvironVar selfEnv)) : [] ∉ tokens s ∧
      (∀ w ∈ args (words s), isArg w) ∧ ∀ w ∈ assigns (words s), isArg w = false := by
  obtain ⟨pre, post, hw, hpre, ha, hr⟩ := words_split (words s)
  have hsub : ∀ w ∈ args (words s), w ∈ words s := by
    intro w hm
    rw [hr] at hm
    rw [hw]
    exact List.mem_append_right _ (List.mem_of_mem_filter hm)
  have hspaces : [] ∉ tokens s := by
    intro hm
    have h₁ : 0 < ((tokens s).filter isArg).count [] :=
      List.count_pos_iff.mpr (List.mem_filter.mpr ⟨hm, isArg_nil⟩)
    rw [count_self h rfl] at h₁
    exact nil_notMem_words (hsub [] (List.count_pos_iff.mp h₁))
  rw [tokens_words hspaces] at h
  refine ⟨hspaces, fun x hx => ?_, fun x hx => ?_⟩
  · by_contra hn
    rw [Bool.not_eq_true] at hn
    cases hq : isStatus x
    case false =>
      have h₁ := List.count_pos_iff.mpr hx
      rw [← count_self h hq] at h₁
      have h₂ := (List.mem_filter.mp (List.count_pos_iff.mp h₁)).2
      rw [hn] at h₂
      cases h₂
    case true =>
      -- All words of this kind are arguments, and one of them does not go to the array.
      have hpre : pre.countP isStatus = 0 := by
        rw [List.countP_eq_zero]
        intro w hm hst
        have hd := isStatus_dollar hst
        simpa [isAssign_dollar hd, isForm_dollar hd] using hpre w hm
      have hpost : (post.filter fun w => !isForm w).countP isStatus = post.countP isStatus := by
        rw [List.countP_filter]
        apply List.countP_congr
        intro w _
        cases hst : isStatus w
        case false => simp
        case true => simp [isForm_dollar (isStatus_dollar hst)]
      have hc := count_status h
      rw [hr, hpost] at hc
      have hall : (words s).countP isStatus = post.countP isStatus := by
        rw [hw, List.countP_append, hpre, Nat.zero_add]
      have hlt := List.countP_lt_length_iff.mpr
        ⟨x, List.mem_filter.mpr ⟨hsub x hx, hq⟩, hn⟩
      rw [← List.countP_eq_length_filter, List.countP_filter] at hlt
      rw [← hall, List.countP_filter] at hc
      simp only [Bool.and_comm] at hc hlt
      omega
  · cases hn : isArg x
    case false => rfl
    case true =>
      rw [ha] at hx
      obtain ⟨hx, hxa⟩ := List.mem_filter.mp hx
      have hq : isStatus x = false := by
        by_contra hq
        rw [isAssign_dollar (isStatus_dollar (by simpa using hq))] at hxa
        cases hxa
      have hc := count_self h hq
      rw [List.count_filter hn, hr, List.count_filter (by simp [isAssign_not_form hxa]), hw,
        List.count_append] at hc
      have := List.count_pos_iff.mpr hx
      omega

theorem execCmd_cases {q : Program} (h : execCmd (fun _ => true) e p = some q) : q.argv = e.argv ∧
    ((e.type = .exec ∧ setEnvironVars e.eargv p.env = some q.process.env) ∨
      (e.type = .redir ∧ q.process.env = p.env)) := by
  unfold execCmd at h
  cases ht : e.type
  case exec =>
    rw [ht] at h
    obtain ⟨env, henv, rfl⟩ := Option.map_eq_some_iff.mp h
    exact ⟨rfl, .inl ⟨rfl, henv⟩⟩
  case redir =>
    rw [ht] at h
    obtain ⟨q', hq, ha, he⟩ := caseRedirMd_true (e := e) (p := p)
    cases Option.some.inj (hq.symm.trans h)
    exact ⟨ha, .inr ⟨rfl, he⟩⟩

theorem assigns_sublist : (assigns ws).Sublist ws :=
  List.filter_sublist.trans (List.takeWhile_prefix _).sublist

theorem Assigned.assignable (hs : END_STRING ∉ s) (h : Assigned s) : Assignable s := by
  -- What a command that runs by itself says about the words.
  have hrun (env : Env) : ∃ e q, ParsedAs env (tokens s) (execCmdCreate s) e ∧
      parseExec env (s ++ [END_STRING]) = some e ∧
      execCmd (fun _ => true) e ⟨env, .inherited 0, .inherited 1, .inherited 2, []⟩ = some q ∧
      q.argv = (args (words s)).map (expandEnvironVar env) ∧
      q.process.env = override env (assigns (words s)) := by
    obtain ⟨e, he, hall⟩ := h ⟨env, .inherited 0, .inherited 1, .inherited 2, []⟩
    obtain ⟨q, hq, ha, hv⟩ := hall (.exec e) _ .exec
    exact ⟨e, q, parseExec_argv hs he, he, hq, ha, hv⟩
  obtain ⟨e, q, hp, he, hq, ha, -⟩ := hrun selfEnv
  obtain ⟨hqa, hqe⟩ := execCmd_cases hq
  have hself : ((tokens s).filter isArg).map (expandEnvironVar selfEnv) =
      (args (words s)).map (expandEnvironVar selfEnv) := by
    rw [← ha, hqa, hp.argv]
    rfl
  obtain ⟨hspaces, hafter, hnot⟩ := args_self hself
  have htok := tokens_words hspaces
  have halone : assigns (words s) ≠ [] → ∀ w ∈ words s, isRedir w = false := by
    intro hne w hm
    by_contra hr
    obtain ⟨e', q', hp', -, hq', -, hv'⟩ := hrun fun _ => none
    have hany : (tokens s).any isRedir = true :=
      List.any_eq_true.mpr ⟨w, htok ▸ hm, by simpa using hr⟩
    have ht' := hp'.type
    rw [hany, if_pos rfl] at ht'
    obtain ⟨-, ⟨ht, -⟩ | ⟨-, henv⟩⟩ := execCmd_cases hq'
    · rw [ht'] at ht
      cases ht
    · exact override_ne hne (hv'.symm.trans henv)
  have hearg : ∀ w ∈ assigns (words s), isEarg w := by
    intro w hm
    have hr := halone (List.ne_nil_of_mem hm) w (assigns_sublist.subset hm)
    have hor := isArg_or (w := w)
    rw [hr, hnot w hm] at hor
    simpa using hor
  obtain ⟨hroom₁, hroom₂⟩ := (parseExec_isSome selfEnv [] hs).mp ⟨e, he⟩
  refine ⟨hspaces, fun w hm => ⟨hearg w hm, ?_⟩, halone, hafter, ?_, ?_⟩
  · -- The command has no redirection, so that the variables are set.
    have hany : (tokens s).any isRedir = false := by
      rw [List.any_eq_false]
      intro x hx
      simp [halone (List.ne_nil_of_mem hm) x (htok ▸ hx)]
    have ht := hp.type
    rw [hany, if_neg (by decide)] at ht
    rcases hqe with ⟨-, hset⟩ | ⟨ht', -⟩
    · have hmem : w ∈ e.eargv := by
        rw [hp.eargv, htok]
        exact List.mem_append_right _ (List.mem_filter.mpr ⟨assigns_sublist.subset hm, hearg w hm⟩)
      have hkey : ∀ x ∈ e.eargv, '=' ∈ x := by
        intro x hx
        rw [hp.eargv] at hx
        exact isEarg_mem (List.mem_filter.mp hx).2
      rw [setEnvironVars_eq hkey] at hset
      split at hset
      case isTrue hall => exact hall w hmem
      case isFalse => cases hset
    · rw [ht'] at ht
      cases ht
  · have hlen := congrArg List.length hself
    rw [List.length_map, List.length_map] at hlen
    rwa [hlen] at hroom₁
  · have hsub : ((assigns (words s)).filter isEarg).Sublist ((words s).filter isEarg) :=
      assigns_sublist.filter isEarg
    rw [List.filter_eq_self.mpr hearg] at hsub
    rw [htok] at hroom₂
    exact hsub.length_le.trans hroom₂

end Converse

end Shell
