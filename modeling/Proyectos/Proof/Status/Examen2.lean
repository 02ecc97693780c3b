import Proyectos.Spec.Procfs

/-!
# `Examen2.cpp`: what it reads of a process's status

The loop ends as soon as it has both strings, which loses nothing of a file that
has each of the two lines at most once (`early_exit`): by induction on the lines
(`Read`), there is no other line to find for a string that is not empty. Such a
file is a process's (`leer_status`). The program prints its name without the
blanks at its start (`examen2_row`).
-/

namespace SO.Proof.Status.Examen2

open SO.Impl SO.Impl.Examen2 SO.Spec.Procfs

/-! ## A line -/

/-- What is left of a string without the blanks at its start, unless that is
nothing. -/
def unblanked (s : List UInt8) : List UInt8 := if s.dropWhile blank = [] then s else s.dropWhile blank

theorem campo_of_long {l : List UInt8} (h : 6 ≤ l.length) : campo l = some (unblanked (l.drop 6)) := by
  rw [campo, if_neg (by omega)]
  rfl

theorem campo_append {k s : List UInt8} (hk : k.length = 6) : campo (k ++ s) = some (unblanked s) := by
  rw [campo_of_long (by rw [List.length_append]; omega), ← hk, List.drop_left]

/-- A string that is blank or does not start with a blank is left as it is. -/
theorem unblanked_eq_self {s : List UInt8} : unblanked s = s ↔ (∀ c ∈ s, blank c) ∨ Stops blank s := by
  unfold unblanked
  split
  · rename_i h
    exact iff_of_true rfl (.inl (List.dropWhile_eq_nil_iff.mp h))
  · rename_i h
    constructor
    · intro hs
      rw [← hs]
      exact .inr (stops_dropWhile s)
    · rintro (hb | hs)
      · exact absurd (List.dropWhile_eq_nil_iff.mpr hb) h
      · exact dropWhile_of_stops (w := []) (by simp) hs

/-- A blank is white space. -/
theorem isspace_of_blank {c : UInt8} (h : blank c) : isspace c := by
  simp only [blank, Bool.or_eq_true, beq_iff_eq] at h
  rcases h with rfl | rfl <;> decide

theorem blank_of_not_isspace {c : UInt8} (h : isspace c = false) : blank c = false := by
  rw [Bool.eq_false_iff] at h ⊢
  exact fun hb => h (isspace_of_blank hb)

theorem leerLinea_name {l s : List UInt8} (h : starts "Name:" l) (hs : campo l = some s) (v : Vars) :
    leerLinea v l = some { v with nombre := s } := by
  rw [leerLinea, if_pos h, hs]
  rfl

theorem leerLinea_ppid {l s : List UInt8} (hn : ¬ starts "Name:" l) (h : starts "PPid:" l)
    (hs : campo l = some s) (v : Vars) : leerLinea v l = some { v with ppid := s } := by
  rw [leerLinea, if_neg hn, if_pos h, hs]
  rfl

theorem leerLinea_other {l : List UInt8} (hn : ¬ starts "Name:" l) (h : ¬ starts "PPid:" l) (v : Vars) :
    leerLinea v l = some v := by
  rw [leerLinea, if_neg hn, if_neg h]

/-- No line starts with both keys. -/
theorem not_starts_ppid {l : List UInt8} (h : starts "Name:" l) : ¬ starts "PPid:" l := by
  rcases l with _ | ⟨c, l⟩
  · exact absurd h (by decide)
  · intro h'
    have hc := (List.cons_prefix_cons.mp (starts_iff.mp h)).1
    have hc' := (List.cons_prefix_cons.mp (starts_iff.mp h')).1
    rw [← hc] at hc'
    exact absurd hc' (by decide)

/-! ## The lines -/

/-- A file in which each of the two lines is there at most once, and not cut
short. -/
structure Tidy (ls : List (List UInt8)) : Prop where
  name : (ls.filter (starts "Name:")).length ≤ 1
  ppid : (ls.filter (starts "PPid:")).length ≤ 1
  long : ∀ l ∈ ls, starts "Name:" l ∨ starts "PPid:" l → 6 ≤ l.length

/-- The field of the line that starts with the key. -/
def field (key : String) (ls : List (List UInt8)) : Option (List UInt8) :=
  (ls.find? (starts key)).bind campo

theorem field_of_none {key : String} {ls : List (List UInt8)} (h : ∀ l ∈ ls, ¬ starts key l) :
    field key ls = none := by
  rw [field, List.find?_eq_none.mpr h]
  rfl

theorem field_cons_of {key : String} {l : List UInt8} (h : starts key l) (ls : List (List UInt8)) :
    field key (l :: ls) = campo l := by
  rw [field, List.find?_cons_of_pos h]
  rfl

theorem field_cons_of_not {key : String} {l : List UInt8} (h : ¬ starts key l)
    (ls : List (List UInt8)) : field key (l :: ls) = field key ls := by
  rw [field, List.find?_cons_of_neg h]
  rfl

/-- After the one line with a key there is no other. -/
theorem not_starts_of_once {key : String} {l : List UInt8} {ls : List (List UInt8)}
    (h : ((l :: ls).filter (starts key)).length ≤ 1) (hl : starts key l) : ∀ l' ∈ ls, ¬ starts key l' := by
  rw [List.filter_cons_of_pos hl, List.length_cons] at h
  have hn : ls.filter (starts key) = [] := List.eq_nil_of_length_eq_zero (by omega)
  exact List.filter_eq_nil_iff.mp hn

theorem Tidy.tail {l : List UInt8} {ls : List (List UInt8)} (h : Tidy (l :: ls)) : Tidy ls := by
  have hsub (key : String) : (ls.filter (starts key)).length ≤ ((l :: ls).filter (starts key)).length :=
    ((List.sublist_cons_self l ls).filter _).length_le
  exact ⟨(hsub _).trans h.name, (hsub _).trans h.ppid, fun l' hl' => h.long l' (List.mem_cons_of_mem l hl')⟩

/-- The loop without its early exit. -/
def leerTodo (v : Vars) (ls : List (List UInt8)) : Option Vars := ls.foldlM leerLinea v

/-- The line `l`, read between `v` and `v'` with the lines `ls` still to come: what
there is to find is the same, and a string that is not empty has been found. -/
structure Read (l : List UInt8) (ls : List (List UInt8)) (v v' : Vars) : Prop where
  nombre : (field "Name:" ls).getD v'.nombre = (field "Name:" (l :: ls)).getD v.nombre
  ppid : (field "PPid:" ls).getD v'.ppid = (field "PPid:" (l :: ls)).getD v.ppid
  nombre_found : (v.nombre ≠ [] → ∀ l' ∈ l :: ls, ¬ starts "Name:" l') →
    v'.nombre ≠ [] → ∀ l' ∈ ls, ¬ starts "Name:" l'
  ppid_found : (v.ppid ≠ [] → ∀ l' ∈ l :: ls, ¬ starts "PPid:" l') →
    v'.ppid ≠ [] → ∀ l' ∈ ls, ¬ starts "PPid:" l'

theorem leerLinea_tidy {l : List UInt8} {ls : List (List UInt8)} (h : Tidy (l :: ls)) (v : Vars) :
    ∃ v', leerLinea v l = some v' ∧ Read l ls v v' := by
  have hrest {key : String} {s : List UInt8} (hf : s ≠ [] → ∀ l' ∈ l :: ls, ¬ starts key l')
      (hs : s ≠ []) : ∀ l' ∈ ls, ¬ starts key l' := fun l' hl' => hf hs l' (List.mem_cons_of_mem l hl')
  by_cases hN : starts "Name:" l
  · have hs := campo_of_long (h.long l List.mem_cons_self (.inl hN))
    have hls := not_starts_of_once h.name hN
    refine ⟨_, leerLinea_name hN hs v, ?_, ?_, fun _ _ => hls, hrest⟩
    · rw [field_of_none hls, field_cons_of hN, hs]
      rfl
    · rw [field_cons_of_not (not_starts_ppid hN)]
  by_cases hP : starts "PPid:" l
  · have hs := campo_of_long (h.long l List.mem_cons_self (.inr hP))
    have hls := not_starts_of_once h.ppid hP
    refine ⟨_, leerLinea_ppid hN hP hs v, ?_, ?_, hrest, fun _ _ => hls⟩
    · rw [field_cons_of_not hN]
    · rw [field_of_none hls, field_cons_of hP, hs]
      rfl
  · refine ⟨v, leerLinea_other hN hP v, ?_, ?_, hrest, hrest⟩
    · rw [field_cons_of_not hN]
    · rw [field_cons_of_not hP]

/-- The loop over all the lines ends with the fields of the two. -/
theorem leerTodo_lines {ls : List (List UInt8)} (h : Tidy ls) (v : Vars) :
    leerTodo v ls = some ⟨(field "Name:" ls).getD v.nombre, (field "PPid:" ls).getD v.ppid⟩ := by
  induction ls generalizing v with
  | nil => rfl
  | cons l ls ih =>
    obtain ⟨v', hl, hr⟩ := leerLinea_tidy h v
    rw [leerTodo, List.foldlM_cons, hl, ← hr.nombre, ← hr.ppid]
    exact ih h.tail v'

/-- The loop that ends early ends as that one does, once it has what it has of the
two strings: there is nothing more to find of one that is not empty. -/
theorem leer_eq_leerTodo {ls : List (List UInt8)} (h : Tidy ls) {v : Vars}
    (hn : v.nombre ≠ [] → ∀ l ∈ ls, ¬ starts "Name:" l)
    (hp : v.ppid ≠ [] → ∀ l ∈ ls, ¬ starts "PPid:" l) : leer v ls = leerTodo v ls := by
  induction ls generalizing v with
  | nil => rfl
  | cons l ls ih =>
    obtain ⟨v', hl, hr⟩ := leerLinea_tidy h v
    have htodo : leerTodo v (l :: ls) = leerTodo v' ls := by
      rw [leerTodo, List.foldlM_cons, hl]
      rfl
    rw [htodo]
    simp only [leer, hl]
    split
    · rename_i hv
      rw [leerTodo_lines h.tail, field_of_none (hr.nombre_found hn hv.1),
        field_of_none (hr.ppid_found hp hv.2)]
      rfl
    · exact ih h.tail (hr.nombre_found hn) (hr.ppid_found hp)

theorem leer_lines {ls : List (List UInt8)} (h : Tidy ls) {v : Vars}
    (hn : v.nombre ≠ [] → ∀ l ∈ ls, ¬ starts "Name:" l)
    (hp : v.ppid ≠ [] → ∀ l ∈ ls, ¬ starts "PPid:" l) :
    leer v ls = some ⟨(field "Name:" ls).getD v.nombre, (field "PPid:" ls).getD v.ppid⟩ :=
  (leer_eq_leerTodo h hn hp).trans (leerTodo_lines h v)

/-- The text of the line that starts with the key: what comes after its six first
characters, without the blanks at its start (nothing, if there is no such line). -/
def texto (key : String) (ls : List (List UInt8)) : List UInt8 :=
  match ls.find? (starts key) with
  | none => []
  | some l => unblanked (l.drop 6)

theorem texto_eq {key : String} {ls : List (List UInt8)} (h : ∀ l ∈ ls, starts key l → 6 ≤ l.length) :
    texto key ls = (field key ls).getD [] := by
  unfold texto field
  rcases hf : ls.find? (starts key) with _ | l
  · rfl
  · rw [Option.bind_some, campo_of_long (h l (List.mem_of_find?_eq_some hf) (List.find?_some hf))]
    rfl

/-- Where each of the two lines is there at most once, the loop that ends early
ends with the same strings as the loop over all the lines, the texts of the two. -/
theorem early_exit {ls : List (List UInt8)} (h : Tidy ls) : leer {} ls = leerTodo {} ls ∧
    leer {} ls = some ⟨texto "Name:" ls, texto "PPid:" ls⟩ := by
  have hn := texto_eq fun l hl hs => h.long l hl (.inl hs)
  have hp := texto_eq fun l hl hs => h.long l hl (.inr hs)
  rw [hn, hp]
  exact ⟨leer_eq_leerTodo h (absurd rfl) (absurd rfl), leer_lines h (absurd rfl) (absurd rfl)⟩

/-- The number of a process's parent before its name, which is blank, and two lines after
the ones that are looked for. -/
def blankStatus : List (List UInt8) :=
  [utf8 "PPid:\t1", utf8 "State:\tS", utf8 "Name:\t ", utf8 "Pid:\t2", utf8 "Threads:\t1"]

theorem early_exit_blank : leer {} blankStatus = leerTodo {} blankStatus ∧
    leer {} blankStatus = some ⟨texto "Name:" blankStatus, texto "PPid:" blankStatus⟩ :=
  early_exit ⟨by decide, by decide, by decide⟩

/-! ## A process -/

theorem tidy (p : Process) : Tidy p.status := by
  refine ⟨by rw [p.nameLine]; rfl, by rw [p.ppidLine]; rfl, fun l hl hs => ?_⟩
  rcases hs with hs | hs
  · rw [eq_of_starts p.nameLine hl hs, List.length_append]
    exact Nat.le_add_right 6 _
  · rw [eq_of_starts p.ppidLine hl hs, List.length_append]
    exact Nat.le_add_right 6 _

theorem field_of_filter {key : String} {ls : List (List UInt8)} {x : List UInt8}
    (h : ls.filter (starts key) = [x]) : field key ls = campo x := by
  rw [field, ← List.head?_filter, h]
  rfl

/-- `Examen2.cpp` reads the process's parent and its name without the blanks at
its start. -/
theorem leer_status (p : Process) :
    leer {} (lines.all (unlines p.status)) = some ⟨unblanked p.name, decimal p.ppid⟩ := by
  have hd : Stops blank (decimal p.ppid) := fun c hc =>
    blank_of_not_isspace (not_isspace_of_isdigit (isdigit_of_mem_decimal (List.mem_of_mem_head? hc)))
  rw [getline_lines p.status_lines, leer_lines (tidy p) (absurd rfl) (absurd rfl),
    field_of_filter p.nameLine, field_of_filter p.ppidLine, campo_append rfl, campo_append rfl,
    unblanked_eq_self.mpr (.inr hd)]
  rfl

/-- The row `Examen2.cpp` prints of the process. -/
theorem examen2_row (p : Process) : examen2.turn () p.entry =
    .next () [row (decimal p.pid) ⟨unblanked p.name, decimal p.ppid⟩ p.cmdline.isEmpty] := by
  have hnum : (p.entry.dir && esNumero p.entry.dName) = true :=
    Bool.and_eq_true_iff.mpr ⟨rfl, List.all_eq_true.mpr fun c => isdigit_of_mem_decimal⟩
  have hopen : p.entry.status.opened = some (unlines p.status) := rfl
  simp only [examen2, if_pos hnum, hopen, leer_status]
  rfl

end SO.Proof.Status.Examen2
