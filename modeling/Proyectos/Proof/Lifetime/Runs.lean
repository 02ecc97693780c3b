import Proyectos.Proof.Lifetime.Step
import Mathlib.Data.List.Nodup

/-!
# Open files over loads and unloads: whole runs

A module that owns its `fops` is in use as long as a file is open (`InUse`), so it
is not unloaded by then and no call is stray (`owner_safe`). One that does not is
unloaded all the same, and the calls that are stray are those on the files it
leaves (`stray_iff`). A registration that is not taken back stays
(`lost_of_kept`).
-/

namespace SO.Hosted

variable {ν ρ γ : Type} {h : Hosted ν ρ γ} {s : Host ν ρ} {r₀ : ρ} {I : Loader ν ρ → Prop}
  {es : List (Act γ)} {key : Nat}

/-- The state after a run. -/
abbrev after (h : Hosted ν ρ γ) (r₀ : ρ) (es : List (Act γ)) : Host ν ρ :=
  Run.after h.step (h.boot r₀) es

/-- A run's transcript. -/
abbrev steps (h : Hosted ν ρ γ) (r₀ : ρ) (es : List (Act γ)) :
    List (Step (Host ν ρ) (Act γ) Said) := Run.steps h.step (h.boot r₀) es

theorem tidy_after (hc : h.Clears r₀ I) (h0 : h.standing r₀ = 0) (es : List (Act γ)) :
    h.Tidy I (h.after r₀ es) :=
  Run.inv_after (P := fun _ => True) (fun _ a hs _ => hs.step hc a) (hc.tidy_boot h0) fun _ _ => trivial

/-! ## A module that owns its `fops` -/

/-- The open files, each on the load in memory, are what the module's users are. -/
structure InUse (s : Host ν ρ) : Prop where
  live : ∀ f ∈ s.files, s.Live f.tag
  users : s.users = s.files.length
  nodup : (s.files.map OpenFile.key).Nodup

/-- A close takes one file. -/
theorem length_filter_key {fs : List OpenFile} (hn : (fs.map OpenFile.key).Nodup) {f : OpenFile}
    (hf : f ∈ fs) : (fs.filter fun f' => f'.key != f.key).length = fs.length - 1 := by
  have hone : fs.countP (fun f' => f'.key == f.key) = 1 := by
    have := List.count_eq_one_of_mem hn (List.mem_map_of_mem hf)
    rwa [List.count, List.countP_map] at this
  have hsum := List.length_eq_countP_add_countP (fun f' : OpenFile => f'.key == f.key) (l := fs)
  have hneg : fs.countP (fun f' => decide ¬ (f'.key == f.key) = true) =
      (fs.filter fun f' => f'.key != f.key).length := by
    rw [List.countP_eq_length_filter]
    congr 1
    refine List.filter_congr fun f' _ => ?_
    rcases hk : f'.key == f.key <;> simp [bne, hk]
  omega

theorem InUse.files_nil (hs : InUse s) (hl : s.loader.loaded = false ∨ s.users = 0) : s.files = [] := by
  rcases hl with hl | hu
  · refine List.eq_nil_iff_forall_not_mem.mpr fun f hf => ?_
    exact Bool.false_ne_true (hl.symm.trans (hs.live f hf).1)
  · rw [← List.length_eq_zero_iff, ← hs.users, hu]

theorem InUse.step (ho : h.owner = true) (hs : InUse s) (a : Act γ) : InUse (h.step s a).1 := by
  have hm := moved h s a
  generalize h.step s a = r at hm
  cases hm with
  | loads hl =>
    have hf := hs.files_nil (.inl hl)
    refine ⟨fun f hm => ?_, hs.users, hs.nodup⟩
    rw [show (h.loadedBy s _).files = s.files from rfl, hf] at hm
    cases hm
  | unloads hl hu =>
    have hf := hs.files_nil (.inr hu)
    refine ⟨fun f hm => ?_, hs.users, hs.nodup⟩
    rw [show (h.unloaded s).files = s.files from rfl, hf] at hm
    cases hm
  | opens hk hi ht =>
    refine ⟨List.forall_mem_cons.mpr ⟨ht, hs.live⟩, ?_, ?_⟩
    · show s.users + h.owner.toNat = _
      rw [ho, hs.users]
      rfl
    · refine List.nodup_cons.mpr ⟨fun hm => ?_, hs.nodup⟩
      obtain ⟨f, hf, he⟩ := List.mem_map.mp hm
      exact Host.tag?_eq_none.mp hk f hf he
  | @closes key tag hk =>
    refine ⟨fun f hf => hs.live f (List.mem_of_mem_filter hf), ?_, ?_⟩
    · show s.users - h.owner.toNat = (s.files.filter fun f => f.key != key).length
      rw [ho, hs.users, length_filter_key hs.nodup (Host.mem_of_tag? hk)]
      rfl
    · exact hs.nodup.sublist (List.filter_sublist.map _)
  | lost | twice | busy | absent | uses | unused | unopened => exact hs

/-- No call is stray, and an unload is refused as long as a file is open. -/
theorem owner_safe (hc : h.Clears r₀ I) (h0 : h.standing r₀ = 0) (ho : h.owner = true)
    (es : List (Act γ)) : ∀ t ∈ h.steps r₀ es, t.out ≠ .stray ∧
      (t.inp = .rmmod → (t.out = .refused ↔ t.pre.loader.loaded = false ∨ t.pre.files ≠ [])) := by
  intro t ht
  obtain ⟨js, a, ks, -, rfl⟩ := Run.mem_steps.mp ht
  have htidy := tidy_after hc h0 js
  have hs : InUse (h.after r₀ js) := Run.inv_after (P := fun _ => True)
    (fun _ a hs _ => hs.step ho a) ⟨nofun, rfl, List.nodup_nil⟩ fun _ _ => trivial
  show (h.step (h.after r₀ js) a).2 ≠ .stray ∧ (a = .rmmod → ((h.step (h.after r₀ js) a).2 = .refused ↔
    (h.after r₀ js).loader.loaded = false ∨ (h.after r₀ js).files ≠ []))
  have hm := moved h (h.after r₀ js) a
  generalize h.step (h.after r₀ js) a = r at hm
  generalize h.after r₀ js = s at *
  cases hm with
  | unloads hl hu =>
    refine ⟨nofun, fun _ => iff_of_false nofun ?_⟩
    rintro (hl' | hf)
    · exact Bool.false_ne_true (hl'.symm.trans hl)
    · exact hf (hs.files_nil (.inr hu))
  | busy hl =>
    refine ⟨nofun, fun _ => iff_of_true rfl (hl.imp_right fun hu hf => hu ?_)⟩
    rw [hs.users, hf]
    rfl
  | lost hk hi hn => exact absurd (htidy.live hc hi) hn
  | uses hk | closes hk =>
    rw [if_pos (hs.live _ (Host.mem_of_tag? hk))]
    exact ⟨nofun, nofun⟩
  | loads | twice | opens | absent | unused | unopened => exact ⟨nofun, nofun⟩

/-! ## A module that does not -/

/-- The file was open when the module was unloaded, and has not been closed since. -/
def Left (h : Hosted ν ρ γ) (r₀ : ρ) (es : List (Act γ)) (key : Nat) : Prop :=
  ∃ l m, es = l ++ .rmmod :: m ∧ (h.step (h.after r₀ l) .rmmod).2 = .done ∧
    (∃ tag, ⟨key, tag⟩ ∈ (h.after r₀ l).files) ∧ .close key ∉ m

/-- A file that the module has left is used, or closed. -/
def UsedLeft (h : Hosted ν ρ γ) (r₀ : ρ) (es : List (Act γ)) : Prop :=
  ∃ l a r key, es = l ++ a :: r ∧ (a = .use key ∨ a = .close key) ∧ h.Left r₀ l key

theorem Left.snoc (hl : h.Left r₀ es key) {a : Act γ} (ha : a ≠ .close key) :
    h.Left r₀ (es ++ [a]) key := by
  obtain ⟨l, m, rfl, hd, hk, hm⟩ := hl
  refine ⟨l, m ++ [a], by rw [List.append_assoc, List.cons_append], hd, hk, fun hc => ?_⟩
  rcases List.mem_append.mp hc with hc | hc
  · exact hm hc
  · exact ha (List.mem_singleton.mp hc).symm

/-- A file whose load is not in memory any more has been left. -/
theorem left_of_not_live (hc : h.Clears r₀ I) (h0 : h.standing r₀ = 0) (es : List (Act γ)) :
    ∀ f ∈ (h.after r₀ es).files, ¬ (h.after r₀ es).Live f.tag → h.Left r₀ es f.key := by
  induction es using List.reverseRecOn with
  | nil => exact nofun
  | append_singleton es a ih =>
    intro f hf hn
    have htidy := tidy_after hc h0 es
    rw [after, Run.after_snoc] at hf hn
    have hm := moved h (h.after r₀ es) a
    generalize hr : h.step (h.after r₀ es) a = r at hm hf hn
    cases hm with
    | loads hl => exact (ih f hf fun h => Bool.false_ne_true (hl.symm.trans h.1)).snoc nofun
    | unloads hl hu =>
      by_cases hlive : (h.after r₀ es).Live f.tag
      · exact ⟨es, [], rfl, congrArg Prod.snd hr, ⟨f.tag, hf⟩, nofun⟩
      · exact (ih f hf hlive).snoc nofun
    | opens hk hi ht =>
      rcases List.mem_cons.mp hf with rfl | hf
      · exact absurd ht hn
      · exact (ih f hf hn).snoc nofun
    | @closes key tag hk =>
      obtain ⟨hf, hne⟩ := List.mem_filter.mp hf
      exact (ih f hf hn).snoc fun e => by cases e; simp at hne
    | lost | twice | busy | absent | uses | unused => exact (ih f hf hn).snoc nofun
    | unopened hk =>
      exact (ih f hf hn).snoc fun e => by cases e; exact Host.tag?_eq_none.mp hk f hf rfl

/-- A file that has been left stays so. -/
structure Orphan (s : Host ν ρ) (key : Nat) : Prop where
  isOpen : ∃ tag, ⟨key, tag⟩ ∈ s.files
  not_live : ∀ tag, ⟨key, tag⟩ ∈ s.files → ¬ s.Live tag

theorem Orphan.step (ht : h.Tidy I s) (hs : Orphan s key) {a : Act γ} (ha : a ≠ .close key) :
    Orphan (h.step s a).1 key := by
  have hm := moved h s a
  generalize h.step s a = r at hm
  cases hm with
  | loads hl =>
    refine ⟨hs.isOpen, fun tag hf hlive => ?_⟩
    have hle := ht.files _ hf
    have heq : tag = s.gen + 1 := hlive.2
    simp only at hle
    omega
  | unloads hl hu =>
    refine ⟨hs.isOpen, fun tag hf hlive => ?_⟩
    exact Bool.false_ne_true ((loaded_unloaded h hl).symm.trans hlive.1)
  | @opens k i tag hk hi htag =>
    obtain ⟨t, ht'⟩ := hs.isOpen
    refine ⟨⟨t, List.mem_cons_of_mem _ ht'⟩, fun tag' hf => ?_⟩
    rcases List.mem_cons.mp hf with he | hf
    · cases he
      exact absurd rfl (Host.tag?_eq_none.mp hk _ ht')
    · exact hs.not_live tag' hf
  | @closes k tag hk =>
    have hne : key ≠ k := fun e => ha (e ▸ rfl)
    obtain ⟨t, ht'⟩ := hs.isOpen
    refine ⟨⟨t, List.mem_filter.mpr ⟨ht', by simpa using hne⟩⟩, fun tag' hf => ?_⟩
    exact hs.not_live tag' (List.mem_of_mem_filter hf)
  | lost | twice | busy | absent | uses | unused | unopened => exact hs

theorem orphan_of_left (hc : h.Clears r₀ I) (h0 : h.standing r₀ = 0) (hl : h.Left r₀ es key) :
    Orphan (h.after r₀ es) key := by
  obtain ⟨l, m, rfl, hd, hk, hm⟩ := hl
  have hfirst : Orphan (h.step (h.after r₀ l) .rmmod).1 key := by
    have hm := moved h (h.after r₀ l) .rmmod
    generalize h.step (h.after r₀ l) .rmmod = r at hm hd
    cases hm with
    | unloads hl hu =>
      exact ⟨hk, fun tag _ ht => Bool.false_ne_true ((loaded_unloaded h hl).symm.trans ht.1)⟩
    | busy => cases hd
  have hrun : h.after r₀ (l ++ .rmmod :: m) = Run.after h.step (h.step (h.after r₀ l) .rmmod).1 m := by
    simp only [after, Run.after_append, Run.after_cons]
  rw [hrun]
  exact (Run.inv_after (I := fun s => h.Tidy I s ∧ Orphan s key) (P := fun a => a ≠ .close key)
    (fun _ a hs ha => ⟨hs.1.step hc a, hs.2.step hs.1 ha⟩)
    ⟨(tidy_after hc h0 l).step hc .rmmod, hfirst⟩ fun _ ha e => hm (e ▸ ha)).2

theorem Orphan.tag? (hs : Orphan s key) : ∃ tag, s.tag? key = some tag ∧ ¬ s.Live tag := by
  rcases hk : s.tag? key with _ | tag
  · obtain ⟨t, ht⟩ := hs.isOpen
    exact absurd rfl (Host.tag?_eq_none.mp hk _ ht)
  · exact ⟨tag, rfl, hs.not_live tag (Host.mem_of_tag? hk)⟩

/-- The calls that are stray are those on a file that an unload has left. -/
theorem stray_iff (hc : h.Clears r₀ I) (h0 : h.standing r₀ = 0) (es : List (Act γ)) :
    (∃ t ∈ h.steps r₀ es, t.out = .stray) ↔ h.UsedLeft r₀ es := by
  constructor
  · rintro ⟨t, ht, hout⟩
    obtain ⟨l, a, r, rfl, rfl⟩ := Run.mem_steps.mp ht
    have hm := moved h (h.after r₀ l) a
    have hleft := left_of_not_live hc h0 l
    rw [Run.stepOf] at hout
    generalize h.step (Run.after h.step (h.boot r₀) l) a = p at hm hout
    cases hm with
    | lost hk hi hn => exact absurd ((tidy_after hc h0 l).live hc hi) hn
    | @uses key tag hk =>
      refine ⟨l, _, r, key, rfl, .inl rfl, hleft _ (Host.mem_of_tag? hk) fun hl => ?_⟩
      simp only [if_pos hl] at hout
      cases hout
    | @closes key tag hk =>
      refine ⟨l, _, r, key, rfl, .inr rfl, hleft _ (Host.mem_of_tag? hk) fun hl => ?_⟩
      simp only [if_pos hl] at hout
      cases hout
    | loads | twice | unloads | busy | opens | absent | unused | unopened => cases hout
  · rintro ⟨l, a, r, key, rfl, ha, hl⟩
    refine ⟨_, Run.mem_steps.mpr ⟨l, a, r, rfl, rfl⟩, ?_⟩
    obtain ⟨tag, hk, hn⟩ := (orphan_of_left hc h0 hl).tag?
    rcases ha with rfl | rfl
    · simp only [Run.stepOf, Hosted.step, hk, if_neg hn]
    · simp only [Run.stepOf, Hosted.step, hk, if_neg hn]

/-! ## A module that keeps its registrations -/

/-- Neither a load nor an unload takes a registration back. -/
def Keeps (h : Hosted ν ρ γ) : Prop :=
  ∀ (l : Loader ν ρ) c, h.standing l.res ≤ h.standing (h.toModule.step l c).1.res

theorem mem_standingOf_of_le {gen k t : Nat} {regs : List Nat} (hk : regs.length ≤ k) (ht : t ∈ regs) :
    t ∈ standingOf gen k regs := by
  rw [standingOf, Nat.sub_eq_zero_of_le hk, List.drop_zero]
  exact List.mem_append_right _ ht

/-- A registration stands that is not of the load in memory. -/
structure Stale (h : Hosted ν ρ γ) (s : Host ν ρ) (tag : Nat) : Prop where
  length : s.regs.length = h.standing s.loader.res
  mem : tag ∈ s.regs
  le : tag ≤ s.gen
  not_live : ¬ s.Live tag

theorem Stale.step (hk : h.Keeps) {tag : Nat} (hs : h.Stale s tag) (a : Act γ) :
    h.Stale (h.step s a).1 tag := by
  have hm := moved h s a
  generalize h.step s a = r at hm
  cases hm with
  | @loads g hl =>
    refine ⟨length_standingOf, mem_standingOf_of_le ?_ hs.mem, hs.le.trans (Nat.le_succ _), fun ht => ?_⟩
    · rw [hs.length]
      exact hk s.loader _
    · have heq : tag = s.gen + 1 := ht.2
      have hle := hs.le
      omega
  | unloads hl hu =>
    refine ⟨length_standingOf, mem_standingOf_of_le ?_ hs.mem, hs.le, fun ht => ?_⟩
    · rw [hs.length]
      exact hk s.loader _
    · exact Bool.false_ne_true ((loaded_unloaded h hl).symm.trans ht.1)
  | opens | closes | lost | twice | busy | absent | uses | unused | unopened =>
    exact ⟨hs.length, hs.mem, hs.le, hs.not_live⟩

theorem Stale.after (hk : h.Keeps) {tag : Nat} (hs : h.Stale s tag) (es : List (Act γ)) :
    h.Stale (Run.after h.step s es) tag :=
  Run.inv_after (I := fun s => h.Stale s tag) (P := fun _ => True) (fun _ a hs _ => hs.step hk a) hs
    fun _ _ => trivial

/-- A registration of the load `tag` stands, and every `open` of one is stray (of a file
that is not open yet). -/
def Lost (h : Hosted ν ρ γ) (s : Host ν ρ) (tag : Nat) : Prop :=
  tag ∈ s.regs ∧ ∀ i, s.regs[i]? = some tag → ∀ key, s.tag? key = none →
    (h.step s (.opn key i)).2 = .stray

theorem Stale.lost {tag : Nat} (hs : h.Stale s tag) : h.Lost s tag := by
  refine ⟨hs.mem, fun i hi key hk => ?_⟩
  simp only [Hosted.step, hk, hi, if_neg hs.not_live]

/-- As many registrations stand as the module holds, and nothing counts it as in use. -/
structure Unowned (h : Hosted ν ρ γ) (s : Host ν ρ) : Prop where
  length : s.regs.length = h.standing s.loader.res
  users : s.users = 0

theorem Unowned.step (ho : h.owner = false) (hs : h.Unowned s) (a : Act γ) :
    h.Unowned (h.step s a).1 := by
  have hm := moved h s a
  generalize h.step s a = r at hm
  cases hm with
  | loads | unloads => exact ⟨length_standingOf, hs.users⟩
  | opens =>
    refine ⟨hs.length, ?_⟩
    show s.users + h.owner.toNat = 0
    rw [ho, hs.users]
    rfl
  | closes =>
    refine ⟨hs.length, ?_⟩
    show s.users - h.owner.toNat = 0
    rw [hs.users, Nat.zero_sub]
  | lost | twice | busy | absent | uses | unused | unopened => exact hs

theorem unowned_after (ho : h.owner = false) (h0 : h.standing r₀ = 0) (es : List (Act γ)) :
    h.Unowned (h.after r₀ es) :=
  Run.inv_after (P := fun _ => True) (fun _ a hs _ => hs.step ho a) ⟨h0.symm, rfl⟩ fun _ _ => trivial

/-- A registration of the load in memory stands. -/
structure Fresh (s : Host ν ρ) (tag : Nat) : Prop where
  mem : tag ∈ s.regs
  live : s.Live tag

theorem Fresh.step {tag : Nat} (hs : Fresh s tag) {a : Act γ} (ha : a ≠ .rmmod) :
    Fresh (h.step s a).1 tag := by
  have hm := moved h s a
  generalize h.step s a = r at hm
  cases hm with
  | loads hl => exact absurd (hl.symm.trans hs.live.1) Bool.false_ne_true
  | unloads | busy => exact absurd rfl ha
  | opens | closes | lost | twice | absent | uses | unused | unopened => exact ⟨hs.mem, hs.live⟩

theorem Fresh.after {tag : Nat} (hs : Fresh s tag) {es : List (Act γ)} (hm : .rmmod ∉ es) :
    Fresh (Run.after h.step s es) tag :=
  Run.inv_after (I := fun s => Fresh s tag) (P := fun a => a ≠ .rmmod) (fun _ _ hs ha => hs.step ha)
    hs fun _ ha e => hm (e ▸ ha)

/-- A load that registers the device. -/
theorem Unowned.fresh (hu : h.Unowned s) {g : γ} (hl : s.loader.loaded = false)
    (hg : (h.loadedBy s g).loader.loaded = true)
    (hlt : h.standing s.loader.res < h.standing (h.loadedBy s g).loader.res) :
    Fresh (h.step s (.insmod g)).1 (s.gen + 1) := by
  have hm := moved h s (.insmod g)
  generalize h.step s (.insmod g) = p at hm
  cases hm with
  | loads =>
    refine ⟨List.mem_append_left _ (List.mem_replicate.mpr ⟨?_, rfl⟩), hg, rfl⟩
    have hlen := hu.length
    simp only [loadedBy] at hlt
    omega
  | twice hl' => exact absurd (hl.symm.trans hl') Bool.false_ne_true

/-- An unload leaves it where it is. -/
theorem Fresh.stale (hk : h.Keeps) (hu : h.Unowned s) {tag : Nat} (hs : Fresh s tag) :
    h.Stale (h.step s .rmmod).1 tag := by
  have hm := moved h s .rmmod
  generalize h.step s .rmmod = p at hm
  cases hm with
  | unloads hl hu' =>
    refine ⟨length_standingOf, mem_standingOf_of_le ?_ hs.mem, hs.live.2.le, fun ht => ?_⟩
    · rw [hu.length]
      exact hk _ _
    · exact Bool.false_ne_true ((loaded_unloaded h hl).symm.trans ht.1)
  | busy hb =>
    rcases hb with hb | hb
    · exact absurd (hb.symm.trans hs.live.1) Bool.false_ne_true
    · exact absurd hu.users hb

/-- Once a load has registered the device and the module has been unloaded, that
registration stands for ever, and every `open` of it is stray. -/
theorem lost_of_kept (hk : h.Keeps) (ho : h.owner = false) (h0 : h.standing r₀ = 0)
    {l m r : List (Act γ)} {g : γ} (hl : (h.after r₀ l).loader.loaded = false)
    (hg : (h.loadedBy (h.after r₀ l) g).loader.loaded = true ∧
      h.standing (h.after r₀ l).loader.res < h.standing (h.loadedBy (h.after r₀ l) g).loader.res)
    (hm : .rmmod ∉ m) :
    h.Lost (h.after r₀ (l ++ .insmod g :: (m ++ .rmmod :: r))) ((h.after r₀ l).gen + 1) := by
  have hrun : h.after r₀ (l ++ .insmod g :: (m ++ .rmmod :: r)) =
      Run.after h.step (h.step (h.after r₀ (l ++ .insmod g :: m)) .rmmod).1 r := by
    simp only [after, Run.after_append, Run.after_cons]
  -- the registration is made, and is the one in memory up to the unload
  have hfresh : Fresh (h.after r₀ (l ++ .insmod g :: m)) ((h.after r₀ l).gen + 1) := by
    rw [after, Run.after_append, Run.after_cons]
    exact ((unowned_after ho h0 l).fresh hl hg.1 hg.2).after hm
  rw [hrun]
  exact ((hfresh.stale hk (unowned_after ho h0 _)).after hk r).lost

end SO.Hosted
