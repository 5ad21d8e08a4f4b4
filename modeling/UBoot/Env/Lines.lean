import UBoot.Env.Parse

/-!
# The lines of an import buffer

The buffer of `himport_r` behind the removal of carriage returns: the cleaned text up to the first
NUL, and then what stood there before.
-/

namespace UBoot.Env

open List

/- The text without the carriage returns directly in front of a line feed. -/
def cleanText : Str → Str
  | [] => []
  | c :: cs => if c = carriageReturn ∧ cs.head? = some newline then cleanText cs else c :: cleanText cs

theorem cleanText_length (s : Str) : (cleanText s).length ≤ s.length := by
  induction s with
  | nil => exact le_rfl
  | cons c s ih =>
    rw [cleanText]
    split_ifs
    · rw [length_cons]
      lia
    · rw [length_cons, length_cons]
      lia

def front (s : Str) : Str := s.takeWhile (· ≠ nul)

section Buffer

variable {data : ℕ → UInt8} {size dp : ℕ}

theorem front_cons {c : UInt8} (hc : c ≠ nul) (s : Str) : front (c :: s) = c :: front s :=
  takeWhile_cons_of_pos (by simpa using hc)

theorem front_nul (s : Str) : front (nul :: s) = [] := takeWhile_cons_of_neg (by simp)

theorem front_head? {s : Str} : (front s).head? = some newline ↔ s.head? = some newline := by
  cases s with
  | nil => rfl
  | cons c s =>
    by_cases hc : c = nul
    · have hne : nul ≠ newline := by decide
      rw [hc, front_nul, head?_cons, Option.some.injEq]
      exact iff_of_false (by simp) hne
    · rw [front_cons hc, head?_cons, head?_cons]

theorem dropCrs_spec (fuel ignored : ℕ) (hend : data size = nul) (hdp : dp ≤ size)
    (hig : ignored ≤ dp) (hf : size < dp + fuel) :
    ∃ data' ignored', dropCrs size fuel data dp ignored = (data', ignored') ∧
      ignored' + (cleanText (front (view data size dp))).length =
        ignored + (front (view data size dp)).length ∧
      (List.range' (dp - ignored) (cleanText (front (view data size dp))).length).map data' =
        cleanText (front (view data size dp)) ∧
      (∀ i, i < dp - ignored → data' i = data i) ∧
      ∀ i, dp - ignored + (cleanText (front (view data size dp))).length ≤ i → data' i = data i := by
  induction fuel generalizing data dp ignored with
  | zero => lia
  | succ fuel ih =>
    rw [view_cons hdp]
    by_cases hnul : data dp = nul
    · rw [hnul, front_nul, dropCrs, if_neg fun h => h.2 hnul]
      exact ⟨data, ignored, rfl, rfl, rfl, fun _ _ => rfl, fun _ _ => rfl⟩
    have hlt : dp < size := by
      rcases Nat.lt_or_ge dp size with h | h
      · exact h
      · exact absurd ((show dp = size by lia) ▸ hend) hnul
    have hnext : (front (view data size (dp + 1))).head? = some newline ↔ data (dp + 1) = newline := by
      rw [front_head?, view_head?, if_pos (show dp + 1 ≤ size from hlt), Option.some.injEq]
    have hcr : (data dp = carriageReturn ∧ dp < size - 1 ∧ data (dp + 1) = newline) ↔
        (data dp = carriageReturn ∧ (front (view data size (dp + 1))).head? = some newline) := by
      rw [hnext]
      refine and_congr_right fun _ => and_iff_right_of_imp fun h => ?_
      by_contra hge
      rw [show dp + 1 = size by lia, hend] at h
      exact absurd h (by decide)
    rw [front_cons hnul, cleanText, dropCrs, if_pos ⟨hlt, hnul⟩]
    by_cases hdrop : data dp = carriageReturn ∧ dp < size - 1 ∧ data (dp + 1) = newline
    · rw [if_pos hdrop, if_pos (hcr.mp hdrop)]
      obtain ⟨data', ignored', hrun, hcount, htext, hbelow, habove⟩ :=
        @ih data (dp + 1) (ignored + 1) hend hlt (by lia) (by lia)
      rw [show dp + 1 - (ignored + 1) = dp - ignored by lia] at htext hbelow habove
      refine ⟨data', ignored', hrun, ?_, htext, hbelow, habove⟩
      rw [length_cons]
      lia
    · rw [if_neg hdrop, if_neg fun h => hdrop (hcr.mpr h)]
      obtain ⟨next, hn⟩ : ∃ next, next = Function.update data (dp - ignored) (data dp) := ⟨_, rfl⟩
      have hold : ∀ i, i ≠ dp - ignored → next i = data i := fun i hi => by
        rw [hn, Function.update_of_ne hi]
      have hview : view next size (dp + 1) = view data size (dp + 1) :=
        view_congr _ _ fun i hi _ => hold i (by lia)
      rw [← hn]
      obtain ⟨data', ignored', hrun, hcount, htext, hbelow, habove⟩ :=
        @ih next (dp + 1) ignored (by rw [hold _ (by lia)]; exact hend) hlt (by lia) (by lia)
      rw [hview] at hcount htext habove
      rw [show dp + 1 - ignored = dp - ignored + 1 by lia] at htext hbelow habove
      refine ⟨data', ignored', hrun, ?_, ?_, fun i hi => ?_, fun i hi => ?_⟩
      · rw [length_cons, length_cons]
        lia
      · rw [length_cons, range'_succ, map_cons, htext, hbelow _ (by lia), hn,
          Function.update_self]
      · rw [hbelow i (by lia), hold i (by lia)]
      · rw [length_cons] at hi
        rw [habove i (by lia), hold i (by lia)]

end Buffer

/- The bytes that the parser starts with, and how many of them are left over at the end. -/
def importBuffer (crlfIsLf : Bool) (env : Str) : (ℕ → UInt8) × ℕ :=
  if crlfIsLf then dropCrs env.length (env.length + 1) (fun i => env.getD i nul) 0 0
  else (fun i => env.getD i nul, 0)

def bufferLines (sep : UInt8) (crlfIsLf : Bool) (env : Str) : List Line :=
  linesWithin sep (importBuffer crlfIsLf env).2 (env.length + 1)
    (view (importBuffer crlfIsLf env).1 env.length 0)

section Lines

theorem front_append_nul (s : Str) : front (s ++ [nul]) = front s := by
  unfold front
  rw [takeWhile_append]
  split_ifs with h
  · rw [takeWhile_cons_of_neg (by simp), append_nil]
    exact (List.IsPrefix.eq_of_length ( takeWhile_prefix _) h).symm
  · rfl

theorem front_length (s : Str) : (front s).length ≤ s.length := ( takeWhile_prefix _).length_le

theorem importBuffer_crlf (env : Str) :
    (importBuffer true env).2 + (cleanText (front env)).length = (front env).length ∧
      view (importBuffer true env).1 env.length 0 =
        cleanText (front env) ++ (env ++ [nul]).drop (cleanText (front env)).length := by
  have hend : (fun i => env.getD i nul) env.length = nul := by simp [getD_eq_getElem?_getD]
  obtain ⟨data, ignored, hrun, hcount, htext, -, habove⟩ := @dropCrs_spec (fun i => env.getD i nul)
    env.length 0 (env.length + 1) 0 hend (Nat.zero_le _) le_rfl (by lia)
  rw [view_getD, front_append_nul] at hcount htext habove
  have hle : (cleanText (front env)).length ≤ env.length :=
    (cleanText_length _).trans (front_length env)
  rw [importBuffer, if_pos rfl, hrun]
  refine ⟨by lia, ?_⟩
  obtain ⟨n, hn⟩ : ∃ n, n = (cleanText (front env)).length := ⟨_, rfl⟩
  rw [← hn] at hle htext habove ⊢
  have hsplit : List.range' 0 (env.length + 1) = List.range' 0 n ++ List.range' n (env.length + 1 - n) := by
    rw [show env.length + 1 = n + (env.length + 1 - n) by lia, ← range'_append_1, Nat.zero_add,
      Nat.add_sub_cancel_left]
  have hrest : (List.range' n (env.length + 1 - n)).map data = (env ++ [nul]).drop n := by
    have hsame : (List.range' n (env.length + 1 - n)).map data =
        (List.range' n (env.length + 1 - n)).map fun i => env.getD i nul :=
      map_congr_left fun i hi => habove i (by rw [mem_range'_1] at hi; lia)
    rw [hsame, ← view_getD, view, Nat.sub_zero, hsplit, map_append,
      drop_left' (by rw [length_map, length_range'])]
  rw [view, Nat.sub_zero, hsplit, map_append, htext, hrest]

theorem importBuffer_plain (env : Str) : (importBuffer false env).2 = 0 ∧
    view (importBuffer false env).1 env.length 0 = env ++ [nul] :=
  ⟨rfl, view_getD env⟩

theorem importBuffer_end (crlfIsLf : Bool) (env : Str) :
    (importBuffer crlfIsLf env).1 env.length = nul ∧ (importBuffer crlfIsLf env).2 ≤ env.length := by
  have hend : (fun i => env.getD i nul) env.length = nul := by simp [getD_eq_getElem?_getD]
  cases crlfIsLf with
  | false => exact ⟨hend, Nat.zero_le _⟩
  | true =>
    obtain ⟨data, ignored, hrun, hcount, -, -, habove⟩ := @dropCrs_spec (fun i => env.getD i nul)
      env.length 0 (env.length + 1) 0 hend (Nat.zero_le _) le_rfl (by lia)
    rw [view_getD, front_append_nul] at hcount habove
    have hfront := front_length env
    rw [importBuffer, if_pos rfl, hrun]
    exact ⟨(habove _ (by lia)).trans hend, by lia⟩

variable {Callback State : Type} (hooks : Hooks Callback State)

/-- `himport_r` in terms of the lines in its buffer. -/
theorem himportR_lines (old : Option (Htab Callback)) (state : State) {env : Str} (henv : env ≠ [])
    (sep : UInt8) (flag : ℕ) (crlfIsLf : Bool) (vars : List Str) {htab : Htab Callback}
    (ht : importTable old env.length flag = some htab) :
    himportR hooks old state env sep flag crlfIsLf vars =
      match importLines hooks flag ⟨htab, state, vars.map some⟩ (bufferLines sep crlfIsLf env) with
      | none => none
      | some (false, s) => some (0, s)
      | some (true, s) => (dropRest hooks flag s s.vars).map fun s => (1, s) := by
  obtain ⟨hend, hle⟩ := importBuffer_end crlfIsLf env
  obtain ⟨size, hsize⟩ : ∃ size, env.length = size + (importBuffer crlfIsLf env).2 :=
    ⟨env.length - (importBuffer crlfIsLf env).2, by lia⟩
  have hloop := importLoop_within hooks sep flag size (importBuffer crlfIsLf env).2 (env.length + 1)
    ⟨htab, state, vars.map some⟩ (hsize ▸ hend) (Nat.zero_le _) (by lia)
  rw [← hsize, show size = env.length - (importBuffer crlfIsLf env).2 by lia] at hloop
  simp only [himportR, ht, henv, if_false]
  rw [bufferLines, ← hloop]
  rfl

/-- `himport_r` with neither the removal of carriage returns nor a list of variables. -/
theorem himportR_eq (old : Option (Htab Callback)) (state : State) {env : Str} (henv : env ≠ [])
    (sep : UInt8) (flag : ℕ) {htab : Htab Callback}
    (ht : importTable old env.length flag = some htab) :
    himportR hooks old state env sep flag false [] =
      match importLines hooks flag ⟨htab, state, []⟩
        (linesOf sep (env.length + 1) (env ++ [nul])) with
      | none => none
      | some (false, s) => some (0, s)
      | some (true, s) => (dropRest hooks flag s s.vars).map fun s => (1, s) := by
  obtain ⟨hslack, hview⟩ := importBuffer_plain env
  rw [himportR_lines hooks old state henv sep flag false [] ht, bufferLines, hslack, hview,
    linesWithin_zero]
  rfl

end Lines

end UBoot.Env
