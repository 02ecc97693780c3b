import Proyectos.Proof.Status.Procesos
import Proyectos.Proof.Status.Examen2
import Proyectos.Proof.Walk

/-!
# `procesos.c` and `Examen2.cpp`: the files that end them

`procesos.c` writes past `nombre` or `ruta` just if a piece of a line has a name
of 100 characters or a path has 256 (`procesos_aborts_iff`).

`Examen2.cpp` ends in an exception of `substr` just if the loop gets to a line
that is nothing but its key, which it does if it has not had both strings before
(`examen2_throws_iff`, by induction on the lines, from what the lines already
read have left).
-/

namespace SO.Proof.Status

open SO.Impl

/-! ## `procesos.c` -/

namespace Procesos

open SO.Impl.Procesos

/-- A piece whose first word after `Name:` does not fit `nombre`. -/
def LongName (q : List UInt8) : Prop :=
  starts "Name:" (cstring q) ∧ 100 ≤ (firstWord ((cstring q).drop 5)).length

/-- An entry whose path does not fit `ruta`, or whose status has such a piece. -/
def Bursts (e : Entry) : Prop :=
  esNumero e.dName ∧ (243 ≤ e.dName.length ∨
    ∃ t, e.status.opened = some t ∧ ∃ q ∈ fgetsLinea.all t, LongName q)

/-- `%s` into `nombre`. -/
abbrev putName (w : List UInt8) (v : Vars) : Vars := { v with nombre := v.nombre.putStr w }

theorem scan_name_eq_none (u : List UInt8) (v : Vars) :
    sscanf (utf8 "Name:" ++ u) nameFormat v = none ↔ 100 ≤ (firstWord u).length := by
  rw [sscanf, nameFormat, scan_literal, scan_passed apply_space]
  have hd : (u.dropWhile isspace).dropWhile isspace = u.dropWhile isspace :=
    dropWhile_of_stops (w := []) (by simp) (stops_dropWhile u)
  have ho : (Directive.str 100 putName).apply (u.dropWhile isspace) v = .overrun ↔
      100 ≤ (firstWord u).length := by
    rw [apply_str_overrun (by decide), hd]
    rfl
  constructor
  · intro h
    by_contra hl
    have hend (k : Nat) (t : List UInt8) (s : Vars) : ∃ r, (scan [] k t s).result = some r := ⟨_, rfl⟩
    obtain ⟨r, hr⟩ := scan_cons_some (k := 0) (fun hs => hl (ho.mp hs)) hend
    rw [hr] at h
    cases h
  · intro h
    rw [scan_overrun (ho.mpr h)]
    rfl

/-- A format with a number alone does not overrun. -/
theorem scanLine_number (key : String) (put : Int → Vars → Vars) (t : List UInt8) (v : Vars) :
    ∃ v', scanLine key (literal (utf8 key) ++ [.space, .int .d put]) t v = some v' := by
  rw [scanLine]
  split
  swap
  · exact ⟨v, rfl⟩
  have hb : ∀ d ∈ (literal (utf8 key) ++ [.space, .int .d put] : List (Directive Vars)),
      d.Bounded := by
    intro d hd
    simp only [literal, List.mem_append, List.mem_map, List.mem_cons, List.not_mem_nil, or_false] at hd
    rcases hd with ⟨c, -, rfl⟩ | rfl | rfl
    · exact Directive.bounded_lit c
    · exact Directive.bounded_space
    · exact Directive.bounded_int .d put
  obtain ⟨r, hr⟩ := scan_bounded hb 0 t v
  exact ⟨r.2, by rw [sscanf, hr]; rfl⟩

theorem leerLinea_eq_none (v : Vars) (q : List UInt8) : leerLinea v q = none ↔ LongName q := by
  have hrest (v : Vars) : ((scanLine "Pid:" pidFormat (cstring q) v).bind fun v =>
      scanLine "PPid:" ppidFormat (cstring q) v) ≠ none := by
    obtain ⟨v₁, h₁⟩ := scanLine_number "Pid:" (fun n v => { v with pid := n }) (cstring q) v
    obtain ⟨v₂, h₂⟩ := scanLine_number "PPid:" (fun n v => { v with ppid := n }) (cstring q) v₁
    rw [show scanLine "Pid:" pidFormat (cstring q) v = _ from h₁, Option.bind_some,
      show scanLine "PPid:" ppidFormat (cstring q) v₁ = _ from h₂]
    exact Option.some_ne_none _
  rw [leerLinea_eq, LongName]
  by_cases hk : starts "Name:" (cstring q)
  · obtain ⟨u, hu⟩ := starts_iff.mp hk
    have hdrop : (cstring q).drop 5 = u := by
      rw [← hu]
      exact List.drop_left' rfl
    rw [scanLine_of hk, hdrop, ← hu, ← scan_name_eq_none u v]
    rcases hs : sscanf (utf8 "Name:" ++ u) nameFormat v with _ | r
    · exact iff_of_true rfl ⟨hu ▸ hk, rfl⟩
    · rw [hu]
      exact iff_of_false (hrest r.2) (nofun)
  · rw [scanLine_of_not (Bool.eq_false_iff.mpr hk), Option.bind_some]
    exact iff_of_false (hrest v) fun h => hk h.1

theorem foldlM_eq_none (qs : List (List UInt8)) (v : Vars) :
    qs.foldlM leerLinea v = none ↔ ∃ q ∈ qs, LongName q := by
  induction qs generalizing v with
  | nil => exact iff_of_false nofun nofun
  | cons q qs ih =>
    simp only [List.foldlM_cons, List.mem_cons, exists_eq_or_imp]
    rw [← leerLinea_eq_none v q]
    rcases leerLinea v q with _ | v'
    · exact iff_of_true rfl (.inl rfl)
    · exact (ih v').trans (or_iff_right (Option.some_ne_none v')).symm

theorem path_fits {d : List UInt8} :
    (utf8 "/proc/" ++ d ++ utf8 "/status").length < 256 ↔ ¬ 243 ≤ d.length := by
  rw [List.length_append, List.length_append]
  show 6 + d.length + 7 < 256 ↔ _
  omega

theorem ends_procesos : procesos.Ends Bursts fun _ => False where
  abort {e} h s := by
    obtain ⟨he, hd⟩ := h
    simp only [procesos, if_pos he, path_fits]
    split
    · rename_i hl
      obtain ⟨t, hf, hq⟩ := hd.resolve_left hl
      have hn : leer t = none := (foldlM_eq_none _ _).mpr hq
      simp only [hf, hn]
    · rfl
  ret _ h := absurd h id
  next {e} h _ s := by
    by_cases he : esNumero e.dName
    swap
    · exact ⟨(), [], by simp only [procesos, if_neg he]⟩
    have hl : ¬ 243 ≤ e.dName.length := fun hl => h ⟨he, .inl hl⟩
    rcases hf : e.status.opened with _ | t
    · exact ⟨(), [], by simp only [procesos, if_pos he, path_fits, if_pos hl, hf]⟩
    rcases hv : leer t with _ | v
    · exact absurd ⟨he, .inr ⟨t, hf, (foldlM_eq_none _ _).mp hv⟩⟩ h
    · exact ⟨(), [row v], by simp only [procesos, if_pos he, path_fits, if_pos hl, hf, hv]⟩

end Procesos

/-- `procesos.c` writes past an array just if some numeric entry has a path or a
name that does not fit. -/
theorem procesos_aborts_iff (es : List Entry) :
    procesos.main () (some es) = none ↔ ∃ e ∈ es, Procesos.Bursts e :=
  Procesos.ends_procesos.main_eq_none_iff_exists () es

/-! ## `Examen2.cpp` -/

namespace Examen2

open SO.Impl.Examen2

/-- The lines `substr` throws on. -/
def cut : List (List UInt8) := [utf8 "Name:", utf8 "PPid:"]

/-- The text of the last of the lines `ls` that starts with the key. -/
def kept (key : String) (ls : List (List UInt8)) : List UInt8 :=
  match (ls.filter (starts key)).getLast? with
  | none => []
  | some l => unblanked (l.drop 6)

/-- The last lines of both keys have a text. -/
def Found (ls : List (List UInt8)) : Prop := kept "Name:" ls ≠ [] ∧ kept "PPid:" ls ≠ []

instance (ls : List (List UInt8)) : Decidable (Found ls) := inferInstanceAs (Decidable (_ ∧ _))

/-- There is such a line, before any after which both strings have been found. -/
def Throws (ls : List (List UInt8)) : Prop :=
  ∃ l x r, ls = l ++ x :: r ∧ x ∈ cut ∧ (∀ y ∈ l, y ∉ cut) ∧ ∀ l', l' <+: l → ¬ Found l'

theorem kept_snoc_of {key : String} {x : List UInt8} (h : starts key x) (ls : List (List UInt8)) :
    kept key (ls ++ [x]) = unblanked (x.drop 6) := by
  rw [kept, List.filter_append, List.filter_cons_of_pos h, List.filter_nil, List.getLast?_concat]

theorem kept_snoc_of_not {key : String} {x : List UInt8} (h : ¬ starts key x)
    (ls : List (List UInt8)) : kept key (ls ++ [x]) = kept key ls := by
  rw [kept, List.filter_append, List.filter_cons_of_neg h, List.filter_nil, List.append_nil]
  rfl

/-- A line with the key that is too short is the key. -/
theorem eq_of_short {key : String} {x : List UInt8} (hk : (utf8 key).length = 5) (h : starts key x) :
    x.length < 6 ↔ x = utf8 key := by
  obtain ⟨u, rfl⟩ := starts_iff.mp h
  rw [List.length_append, hk, List.append_right_eq_self, ← List.length_eq_zero_iff]
  omega

/-- What the variables are after the lines `ls`. -/
abbrev vars (ls : List (List UInt8)) : Vars := ⟨kept "Name:" ls, kept "PPid:" ls⟩

theorem leerLinea_vars (ls : List (List UInt8)) (x : List UInt8) :
    leerLinea (vars ls) x = if x ∈ cut then none else some (vars (ls ++ [x])) := by
  have hcampo {key : String} (hk : (utf8 key).length = 5) (h : starts key x)
      (hx : x ∈ cut ↔ x = utf8 key) :
      campo x = if x ∈ cut then none else some (unblanked (x.drop 6)) := by
    have hs := eq_of_short hk h
    split
    · rename_i hm
      rw [campo, if_pos (hs.mpr (hx.mp hm))]
    · rename_i hm
      exact campo_of_long (by_contra fun hl => hm (hx.mpr (hs.mp (by omega))))
  by_cases hN : starts "Name:" x
  · have hP := not_starts_ppid hN
    have hx : x ∈ cut ↔ x = utf8 "Name:" := by
      rw [cut, List.mem_cons, List.mem_singleton]
      exact or_iff_left (by rintro rfl; exact hP (by decide))
    rw [leerLinea, if_pos hN, hcampo rfl hN hx, vars, vars, kept_snoc_of hN, kept_snoc_of_not hP]
    split <;> rfl
  by_cases hP : starts "PPid:" x
  · have hx : x ∈ cut ↔ x = utf8 "PPid:" := by
      rw [cut, List.mem_cons, List.mem_singleton]
      exact or_iff_right (by rintro rfl; exact hN (by decide))
    rw [leerLinea, if_neg hN, if_pos hP, hcampo rfl hP hx, vars, vars, kept_snoc_of hP,
      kept_snoc_of_not hN]
    split <;> rfl
  · have hx : x ∉ cut := by
      rw [cut, List.mem_cons, List.mem_singleton]
      rintro (rfl | rfl)
      · exact hN (by decide)
      · exact hP (by decide)
    rw [leerLinea_other hN hP, if_neg hx, vars, vars, kept_snoc_of_not hN, kept_snoc_of_not hP]

/-- A line that `substr` does not throw on. -/
theorem leer_vars_cons {x : List UInt8} (hx : x ∉ cut) (done ls : List (List UInt8)) :
    leer (vars done) (x :: ls) =
      if Found (done ++ [x]) then some (vars (done ++ [x])) else leer (vars (done ++ [x])) ls := by
  simp only [leer, leerLinea_vars, if_neg hx]
  rfl

theorem leer_vars_eq_none (done ls : List (List UInt8)) : leer (vars done) ls = none ↔
    ∃ l x r, ls = l ++ x :: r ∧ x ∈ cut ∧ (∀ y ∈ l, y ∉ cut) ∧
      ∀ l', l' ≠ [] → l' <+: l → ¬ Found (done ++ l') := by
  induction ls generalizing done with
  | nil =>
    refine iff_of_false (Option.some_ne_none _) ?_
    rintro ⟨l, x, r, h, -⟩
    simp at h
  | cons x ls ih =>
    by_cases hx : x ∈ cut
    · have hn : leer (vars done) (x :: ls) = none := by
        simp only [leer, leerLinea_vars, if_pos hx]
      refine iff_of_true hn ⟨[], x, ls, rfl, hx, List.forall_mem_nil _, fun l' hne hl => ?_⟩
      exact absurd (List.prefix_nil.mp hl) hne
    -- a line further on is reached past `x` only
    have hpast : (∃ l y r, x :: ls = l ++ y :: r ∧ y ∈ cut ∧ (∀ z ∈ l, z ∉ cut) ∧
        ∀ l', l' ≠ [] → l' <+: l → ¬ Found (done ++ l')) ↔ ¬ Found (done ++ [x]) ∧
        ∃ l y r, ls = l ++ y :: r ∧ y ∈ cut ∧ (∀ z ∈ l, z ∉ cut) ∧
          ∀ l', l' ≠ [] → l' <+: l → ¬ Found (done ++ [x] ++ l') := by
      constructor
      · rintro ⟨_ | ⟨x', l⟩, y, r, he, hy, hl, hf⟩
        · obtain ⟨rfl, -⟩ := List.cons.inj he
          exact absurd hy hx
        · obtain ⟨rfl, rfl⟩ := List.cons.inj he
          refine ⟨hf [x] (List.cons_ne_nil _ _) (List.prefix_append [x] l), l, y, r, rfl, hy,
            (List.forall_mem_cons.mp hl).2, fun l' _ hl' => ?_⟩
          rw [List.append_assoc]
          exact hf (x :: l') (List.cons_ne_nil _ _) (List.cons_prefix_cons.mpr ⟨rfl, hl'⟩)
      · rintro ⟨hx', l, y, r, rfl, hy, hl, hf⟩
        refine ⟨x :: l, y, r, rfl, hy, List.forall_mem_cons.mpr ⟨hx, hl⟩, fun l' hne hl' => ?_⟩
        rcases List.prefix_cons_iff.mp hl' with rfl | ⟨l'', rfl, hl''⟩
        · exact absurd rfl hne
        · rcases eq_or_ne l'' [] with rfl | hne'
          · exact hx'
          · have := hf l'' hne' hl''
            rwa [List.append_assoc] at this
    rw [leer_vars_cons hx, hpast]
    by_cases hf : Found (done ++ [x])
    · rw [if_pos hf]
      exact iff_of_false (Option.some_ne_none _) fun h => h.1 hf
    · rw [if_neg hf, ih]
      exact (and_iff_right hf).symm

theorem leer_eq_none (ls : List (List UInt8)) : leer {} ls = none ↔ Throws ls := by
  refine (leer_vars_eq_none [] ls).trans (exists₃_congr fun l x r => ?_)
  refine and_congr_right' (and_congr_right' (and_congr_right' (forall_congr' fun l' => ?_)))
  constructor
  · intro h hl
    rcases eq_or_ne l' [] with rfl | hne
    · exact fun hf => hf.1 rfl
    · exact h hne hl
  · exact fun h _ hl => h hl

/-- An entry whose status has such a line. -/
def Breaks (e : Entry) : Prop :=
  (e.dir && esNumero e.dName) ∧ ∃ t, e.status.opened = some t ∧ Throws (lines.all t)

theorem ends_examen2 : examen2.Ends Breaks fun _ => False where
  abort {e} h s := by
    obtain ⟨he, t, hf, hn⟩ := h
    simp only [examen2, if_pos he, hf, (leer_eq_none _).mpr hn]
  ret _ h := absurd h id
  next {e} h _ s := by
    by_cases he : e.dir && esNumero e.dName
    swap
    · exact ⟨(), [], by simp only [examen2, if_neg he]⟩
    rcases hf : e.status.opened with _ | t
    · exact ⟨(), [], by simp only [examen2, if_pos he, hf]⟩
    rcases hv : leer {} (lines.all t) with _ | v
    · exact absurd ⟨he, t, hf, (leer_eq_none _).mp hv⟩ h
    · exact ⟨(), [row e.dName v (esKernelProceso e.cmdline)], by
        simp only [examen2, if_pos he, hf, hv]⟩

end Examen2

/-- `Examen2.cpp` ends in an exception just if a status has a line that is nothing
but its key, and the loop has not ended before it. -/
theorem examen2_throws_iff (es : List Entry) :
    examen2.main () (some es) = none ↔ ∃ e ∈ es, Examen2.Breaks e :=
  Examen2.ends_examen2.main_eq_none_iff_exists () es

end SO.Proof.Status
