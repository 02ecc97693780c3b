import Proyectos.Kernel.Client

/-!
# A shell's commands on a device

`cat` reads until it is told that the file ends, `echo` writes its text and a
newline, and a script is any list of these, each in a session of its own and run
when the one before has ended. A command that does not end is told by `none`,
whatever the number of calls it is allowed, `fuel`.

When each command ends, and what it prints and leaves, is the driver's (`Commands`).
A script then ends just if each of its commands does in the mode it finds (`Fine`),
and prints the same as many times as it has a `cat` (`script_iff`).
-/

namespace SO

/-- A command, with its input or output at the device. -/
inductive Cmd
  | cat
  | echo (text : List UInt8)
  deriving DecidableEq

/-- What `echo` writes. -/
def Cmd.line (text : List UInt8) : List UInt8 := text ++ ['\n'.toUInt8]

theorem Cmd.line_ne_nil (text : List UInt8) : Cmd.line text ≠ [] := by simp [Cmd.line]

/-- The mode a script leaves, where each line it writes makes `mode` of the one it finds. -/
def Cmd.modeAfter {μ : Type} (mode : List UInt8 → μ → μ) (m : μ) (cs : List Cmd) : μ :=
  cs.foldl (fun m c => match c with
    | .cat => m
    | .echo text => mode (Cmd.line text) m) m

namespace Driver

variable {σ : Type} (d : Driver σ)

/-- The reads of `cat`, `len` bytes each, until one is told the end of the file or an
error: what it prints, and the state left. -/
def readAll (len k : Nat) : Nat → Sys σ → Option (List UInt8 × Sys σ)
  | 0, _ => none
  | fuel + 1, s =>
    let r := d.step s (.read k none {} len)
    if r.2.ret ≤ 0 then some ([], r.1)
    else (readAll len k fuel r.1).map fun w => (r.2.out.user.take r.2.ret.toNat ++ w.1, w.2)

/-- `cat /dev/…`. -/
def cat (len fuel k : Nat) (s : Sys σ) : Option (List UInt8 × Sys σ) :=
  (d.readAll len k fuel (d.step s (.opn k)).1).map fun w => (w.1, (d.step w.2 (.close k)).1)

/-- `echo text > /dev/…`. -/
def echo (fuel k : Nat) (s : Sys σ) (text : List UInt8) : Option (Sys σ) :=
  (d.writeAll k (fun _ => []) fuel 0 (d.step s (.opn k)).1 (Cmd.line text)).map fun w =>
    (d.step w.sys (.close k)).1

/-- A script, from its session `k` on: what each `cat` prints, and the state left. -/
def shell (len fuel : Nat) : Nat → Sys σ → List Cmd → Option (List (List UInt8) × Sys σ)
  | _, s, [] => some ([], s)
  | k, s, .cat :: cs =>
    (d.cat len fuel k s).bind fun r =>
      (shell len fuel (k + 1) r.2 cs).map fun t => (r.1 :: t.1, t.2)
  | k, s, .echo text :: cs =>
    (d.echo fuel k s text).bind fun s' => shell len fuel (k + 1) s' cs

/-! ## More calls -/

variable {d} {len k fuel fuel' : Nat} {s : Sys σ}

/-- A program that ends ends the same with more calls allowed. -/
theorem readAll_mono (h : fuel ≤ fuel') {w : List UInt8 × Sys σ}
    (hw : d.readAll len k fuel s = some w) : d.readAll len k fuel' s = some w := by
  induction fuel generalizing fuel' s w with
  | zero => cases hw
  | succ fuel ih =>
    obtain ⟨f, rfl⟩ : ∃ f, fuel' = f + 1 := ⟨fuel' - 1, by omega⟩
    simp only [readAll] at hw ⊢
    split at hw
    · rename_i h0
      rw [if_pos h0]
      exact hw
    · rename_i h0
      obtain ⟨w', hw', rfl⟩ := Option.map_eq_some_iff.mp hw
      rw [if_neg h0, ih (by omega) hw', Option.map_some]

theorem cat_mono (h : fuel ≤ fuel') {w : List UInt8 × Sys σ} (hw : d.cat len fuel k s = some w) :
    d.cat len fuel' k s = some w := by
  obtain ⟨w', hw', rfl⟩ := Option.map_eq_some_iff.mp hw
  rw [cat, readAll_mono h hw', Option.map_some]

theorem echo_mono (h : fuel ≤ fuel') {text : List UInt8} {s' : Sys σ}
    (hw : d.echo fuel k s text = some s') : d.echo fuel' k s text = some s' := by
  obtain ⟨w', hw', rfl⟩ := Option.map_eq_some_iff.mp hw
  rw [echo, writeAll_mono h hw', Option.map_some]

theorem shell_mono (h : fuel ≤ fuel') {cs : List Cmd} {t : List (List UInt8) × Sys σ}
    (ht : d.shell len fuel k s cs = some t) : d.shell len fuel' k s cs = some t := by
  induction cs generalizing k s t with
  | nil => exact ht
  | cons c cs ih =>
    cases c with
    | cat =>
      rw [shell] at ht ⊢
      obtain ⟨r, hr, ht⟩ := Option.bind_eq_some_iff.mp ht
      obtain ⟨t', ht', rfl⟩ := Option.map_eq_some_iff.mp ht
      rw [cat_mono h hr, Option.bind_some, ih ht', Option.map_some]
    | echo text =>
      rw [shell] at ht ⊢
      obtain ⟨s', hs', ht⟩ := Option.bind_eq_some_iff.mp ht
      rw [echo_mono h hs', Option.bind_some, ih ht]

/-! ## Scripts -/

/-- What the commands do on a device, with `len` bytes asked for by each read of `cat`. -/
structure Commands (d : Driver σ) (len : Nat) (μ : Type) where
  /-- No session from `k` on has been used, and the device is in the mode given. -/
  Ready : Nat → μ → Sys σ → Prop
  /-- `cat` ends. -/
  Readable : μ → Prop
  printed : List UInt8
  /-- A line that `echo` ends on. -/
  Fits : List UInt8 → Prop
  /-- The mode a line leaves. -/
  mode : List UInt8 → μ → μ
  cat_ends : ∀ {k m s}, Ready k m s → Readable m →
    ∃ n s', (∀ fuel ≥ n, d.cat len fuel k s = some (printed, s')) ∧ Ready (k + 1) m s'
  cat_stuck : ∀ {k m s}, Ready k m s → ¬ Readable m → ∀ fuel, d.cat len fuel k s = none
  echo_ends : ∀ {k m s text}, Ready k m s → Fits (Cmd.line text) →
    ∃ n s', (∀ fuel ≥ n, d.echo fuel k s text = some s') ∧ Ready (k + 1) (mode (Cmd.line text) m) s'
  echo_stuck : ∀ {k m s text}, Ready k m s → ¬ Fits (Cmd.line text) →
    ∀ fuel, d.echo fuel k s text = none

namespace Commands

variable {μ : Type} (C : Commands d len μ)

/-- Each command ends, in the mode the ones before it leave, `m` at first. -/
def Fine : μ → List Cmd → Prop
  | _, [] => True
  | m, .cat :: cs => C.Readable m ∧ Fine m cs
  | m, .echo text :: cs => C.Fits (Cmd.line text) ∧ Fine (C.mode (Cmd.line text) m) cs

variable {C} {m : μ}

theorem shell_ends {cs : List Cmd} (h : C.Ready k m s) (hc : C.Fine m cs) :
    ∃ n s', ∀ fuel ≥ n,
      d.shell len fuel k s cs = some (List.replicate (cs.count .cat) C.printed, s') := by
  induction cs generalizing k m s with
  | nil => exact ⟨0, s, fun _ _ => rfl⟩
  | cons c cs ih =>
    cases c with
    | cat =>
      obtain ⟨n, s', he, hr⟩ := C.cat_ends h hc.1
      obtain ⟨n', s'', hs⟩ := ih hr hc.2
      refine ⟨max n n', s'', fun fuel hf => ?_⟩
      rw [shell, he fuel (le_trans (le_max_left ..) hf), Option.bind_some,
        hs fuel (le_trans (le_max_right ..) hf), Option.map_some, List.count_cons_self,
        List.replicate_succ]
    | echo text =>
      obtain ⟨n, s', he, hr⟩ := C.echo_ends h hc.1
      obtain ⟨n', s'', hs⟩ := ih hr hc.2
      refine ⟨max n n', s'', fun fuel hf => ?_⟩
      rw [shell, he fuel (le_trans (le_max_left ..) hf), Option.bind_some,
        hs fuel (le_trans (le_max_right ..) hf), List.count_cons_of_ne (by simp)]

/-- A script with a command that does not end does not end. -/
theorem shell_stuck {cs : List Cmd} (h : C.Ready k m s) (hc : ¬ C.Fine m cs) (fuel : Nat) :
    d.shell len fuel k s cs = none := by
  induction cs generalizing k m s fuel with
  | nil => exact absurd trivial hc
  | cons c cs ih =>
    by_contra hne
    obtain ⟨t, ht⟩ := Option.ne_none_iff_exists'.mp hne
    cases c with
    | cat =>
      by_cases hm : C.Readable m
      · -- the `cat` ends, with some number of calls; so the rest does not
        obtain ⟨n, s', he, hr⟩ := C.cat_ends h hm
        have ht' := shell_mono (le_max_left fuel n) ht
        rw [shell, he _ (le_max_right ..), Option.bind_some, ih hr fun hf => hc ⟨hm, hf⟩] at ht'
        cases ht'
      · rw [shell, C.cat_stuck h hm] at ht
        cases ht
    | echo text =>
      by_cases hfit : C.Fits (Cmd.line text)
      · obtain ⟨n, s', he, hr⟩ := C.echo_ends h hfit
        have ht' := shell_mono (le_max_left fuel n) ht
        rw [shell, he _ (le_max_right ..), Option.bind_some, ih hr fun hf => hc ⟨hfit, hf⟩] at ht'
        cases ht'
      · rw [shell, C.echo_stuck h hfit] at ht
        cases ht

/-- A script ends just if each of its commands does in the mode it finds; and it prints
the same for each `cat`. -/
theorem script_iff (h : C.Ready k m s) (cs : List Cmd) :
    ((∃ fuel t, d.shell len fuel k s cs = some t) ↔ C.Fine m cs) ∧
      ∀ fuel t, d.shell len fuel k s cs = some t →
        t.1 = List.replicate (cs.count .cat) C.printed := by
  refine ⟨⟨fun ⟨fuel, t, ht⟩ => ?_, fun hc => ?_⟩, fun fuel t ht => ?_⟩
  · by_contra hc
    rw [shell_stuck h hc] at ht
    cases ht
  · obtain ⟨n, s', hs⟩ := shell_ends h hc
    exact ⟨n, _, hs n le_rfl⟩
  · by_cases hc : C.Fine m cs
    · obtain ⟨n, s', hs⟩ := shell_ends h hc
      have hm := shell_mono (le_max_left fuel n) ht
      rw [hs _ (le_max_right ..)] at hm
      cases hm
      rfl
    · rw [shell_stuck h hc] at ht
      cases ht

theorem fine_iff (cs : List Cmd) : C.Fine m cs ↔
    (∀ text, .echo text ∈ cs → C.Fits (Cmd.line text)) ∧
      ∀ l r, cs = l ++ .cat :: r → C.Readable (Cmd.modeAfter C.mode m l) := by
  induction cs generalizing m with
  | nil => simp [Fine]
  | cons c cs ih =>
    cases c with
    | cat =>
      rw [Fine, ih]
      constructor
      · rintro ⟨h0, hf, hm⟩
        refine ⟨fun text ht => hf text ((List.mem_cons.mp ht).resolve_left nofun), fun l r e => ?_⟩
        cases l with
        | nil => exact h0
        | cons c l =>
          obtain ⟨rfl, e'⟩ := List.cons.inj e
          exact hm l r e'
      · rintro ⟨hf, hm⟩
        exact ⟨hm [] cs rfl, fun text ht => hf text (List.mem_cons_of_mem _ ht), fun l r e =>
          hm (.cat :: l) r (congrArg _ e)⟩
    | echo text =>
      rw [Fine, ih]
      constructor
      · rintro ⟨hfit, hf, hm⟩
        refine ⟨fun t ht => ?_, fun l r e => ?_⟩
        · rcases List.mem_cons.mp ht with h | h
          · cases h
            exact hfit
          · exact hf t h
        · cases l with
          | nil => cases e
          | cons c l =>
            obtain ⟨rfl, e'⟩ := List.cons.inj e
            exact hm l r e'
      · rintro ⟨hf, hm⟩
        exact ⟨hf text List.mem_cons_self, fun t ht => hf t (List.mem_cons_of_mem _ ht), fun l r e =>
          hm (.echo text :: l) r (congrArg _ e)⟩

end Commands

end Driver

end SO
