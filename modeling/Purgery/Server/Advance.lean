import Purgery.Interleaving.Course
import Purgery.Interleaving.Overtaken
import Purgery.Server.Calls
import Purgery.Server.Effect
import Purgery.Server.Exclusion.History

namespace Purgery.Server

open Purgery.Interleaving

section Advance

variable {Tid : Type} {w w' w'' : RunWorld Tid} {ph : RunPhase}

/-- The run only moves forward: it does not come back to a phase that it has
left, it stays somewhere, and a terminal directory keeps its status. -/
structure Advance (w w' : RunWorld Tid) : Prop where
  past : ∀ ph, w.view.Past ph → w'.view.Past ph
  stays : ∀ ph d, w.dirs ph = some d → ∃ ph' d', ph.rank ≤ ph'.rank ∧ w'.dirs ph' = some d'
  settled : ∀ ph d, ph.terminal = true → w.dirs ph = some d →
    ∃ d', w'.dirs ph = some d' ∧ d'.file .status = d.file .status

theorem RunWorld.past_iff : w.view.Past ph ↔ ∀ ph', ph'.rank ≤ ph.rank → w.dirs ph' = none := by
  simp [View.Past, RunWorld.view]

theorem Advance.refl (w : RunWorld Tid) : Advance w w where
  past _ h := h
  stays ph d hd := ⟨ph, d, le_refl _, hd⟩
  settled _ d _ hd := ⟨d, hd, rfl⟩

theorem Advance.trans (h : Advance w w') (h' : Advance w' w'') : Advance w w'' where
  past ph hp := h'.past ph (h.past ph hp)
  stays ph d hd := by
    obtain ⟨ph₁, d₁, hle₁, hd₁⟩ := h.stays ph d hd
    obtain ⟨ph₂, d₂, hle₂, hd₂⟩ := h'.stays ph₁ d₁ hd₁
    exact ⟨ph₂, d₂, hle₁.trans hle₂, hd₂⟩
  settled ph d ht hd := by
    obtain ⟨d₁, hd₁, hs₁⟩ := h.settled ph d ht hd
    obtain ⟨d₂, hd₂, hs₂⟩ := h'.settled ph d₁ ht hd₁
    exact ⟨d₂, hd₂, hs₂.trans hs₁⟩

theorem Advance.of_dirs (h : w'.dirs = w.dirs) : Advance w w' where
  past ph hp := by
    rw [RunWorld.past_iff] at hp ⊢
    rwa [h]
  stays ph d hd := ⟨ph, d, le_refl _, h ▸ hd⟩
  settled _ d _ hd := ⟨d, h ▸ hd, rfl⟩

/-- A directory is changed where it is. -/
theorem Advance.update {d d' : RunDir} (hd : w.dirs ph = some d)
    (h : w'.dirs = Function.update w.dirs ph (some d'))
    (hs : ph.terminal = true → d'.file .status = d.file .status) : Advance w w' where
  past ph' hp := by
    rw [RunWorld.past_iff] at hp ⊢
    intro p hle
    have hne : p ≠ ph := by
      rintro rfl
      exact nomatch hd.symm.trans (hp p hle)
    rw [h, Function.update_of_ne hne]
    exact hp p hle
  stays p e he := by
    by_cases hp : p = ph
    · exact ⟨ph, d', by rw [hp], by simp [h]⟩
    · exact ⟨p, e, le_refl _, by simp [h, hp, he]⟩
  settled p e ht he := by
    by_cases hp : p = ph
    · subst hp
      obtain rfl : d = e := by simpa [hd] using he
      exact ⟨d', by simp [h], hs ht⟩
    · exact ⟨e, by simp [h, hp, he], rfl⟩

theorem LeadsTo.rank {src dst : RunPhase} (h : LeadsTo src dst) :
    src.rank < dst.rank ∧ src.terminal = false := by
  cases src <;> cases dst <;> simp_all [LeadsTo, RunPhase.rank, RunPhase.terminal]

theorem Advance.move {src dst : RunPhase} {d : RunDir} (hl : LeadsTo src dst)
    (hd : w.dirs src = some d) (hfree : w.dirs dst = none)
    (h : w'.dirs = Function.update (Function.update w.dirs src none) dst (some d)) :
    Advance w w' := by
  obtain ⟨hrank, hsrc⟩ := hl.rank
  have hne : src ≠ dst := by
    rintro rfl
    exact lt_irrefl _ hrank
  refine ⟨fun ph hp => ?_, fun ph e he => ?_, fun ph e ht he => ?_⟩
  · rw [RunWorld.past_iff] at hp ⊢
    intro p hle
    have hpd : p ≠ dst := by
      rintro rfl
      exact nomatch hd.symm.trans (hp src (by omega))
    rw [h, Function.update_of_ne hpd]
    by_cases hps : p = src
    · simp [hps]
    · rw [Function.update_of_ne hps]
      exact hp p hle
  · by_cases hps : ph = src
    · exact ⟨dst, d, by rw [hps]; omega, by simp [h]⟩
    · have hpd : ph ≠ dst := by
        rintro rfl
        exact nomatch hfree.symm.trans he
      exact ⟨ph, e, le_refl _, by simp [h, hps, hpd, he]⟩
  · have hps : ph ≠ src := by
      rintro rfl
      exact nomatch hsrc.symm.trans ht
    have hpd : ph ≠ dst := by
      rintro rfl
      exact nomatch hfree.symm.trans he
    exact ⟨e, by simp [h, hps, hpd, he], rfl⟩

variable {config : ServerConfig} {k : RunKey} {now : Nat} {o : RunOp}

theorem WrittenAt.not_terminal {f : FileName} (h : WrittenAt ph f) : ph.terminal = false := by
  cases ph <;> cases f <;> first | rfl | exact nomatch h

/-- A call that the server makes moves the run forward, if it does not set up
a work area where there is no run. -/
theorem Advance.of_effect (he : Effect o w w') (ho : o.Issued config k now)
    (hw' : w'.view.Inv config k)
    (hcreate : (o = .createWork ∨ ∃ path, o = .createWorkParent path) →
      w'.dirs .processing ≠ none → w.dirs .processing = none →
      ∃ ph d, ph ≠ .processing ∧ w.dirs ph = some d) : Advance w w' := by
  cases he with
  | same h => exact .of_dirs h
  | edit ph d d' hd hed h =>
    refine .update hd h fun ht => ?_
    obtain hf | ⟨rfl, -, -⟩ | ⟨rfl, -⟩ := hed.file .status
    · exact hf
    · exact absurd (WrittenAt.not_terminal ho) (by simp [ht])
    · obtain ⟨rfl, -⟩ | ⟨-, hne⟩ := ho
      · exact nomatch ht
      · exact absurd rfl hne
  | move src dst d hop hd hfree h =>
    subst hop
    exact .move ho hd hfree h
  | create d hop hfree h =>
    obtain ⟨ph, e, hne, he⟩ := hcreate hop (by simp [h]) hfree
    refine absurd (hw'.unique .processing ph d.core e.core ?_ ?_) hne.symm
    · simp [RunWorld.view, h]
    · simp [RunWorld.view, h, hne, he]

end Advance

section Presence

variable {Tid : Type} {w w' : RunWorld Tid}

/-- The run has a directory. -/
def RunWorld.Present (w : RunWorld Tid) : Prop := ∃ ph d, w.dirs ph = some d

theorem Advance.present (h : Advance w w') (hp : w.Present) : w'.Present := by
  obtain ⟨ph, d, hd⟩ := hp
  obtain ⟨ph', d', _, hd'⟩ := h.stays ph d hd
  exact ⟨ph', d', hd'⟩

theorem RunWorld.past_ready (h : w.view.Past .incoming) (hd : w.dirs .ready = none) :
    w.view.Past .ready := by
  rw [RunWorld.past_iff] at h ⊢
  intro ph hle
  cases ph with
  | incoming => exact h .incoming (le_refl _)
  | ready => exact hd
  | _ => simp [RunPhase.rank] at hle

theorem RunWorld.past_processing (h : w.view.Past .ready) (hd : w.dirs .processing = none) :
    w.view.Past .processing := by
  rw [RunWorld.past_iff] at h ⊢
  intro ph hle
  cases ph with
  | incoming => exact h .incoming (by decide)
  | ready => exact h .ready (le_refl _)
  | processing => exact hd
  | _ => simp [RunPhase.rank] at hle

theorem RunWorld.past_incoming (hd : w.dirs .incoming = none) : w.view.Past .incoming := by
  rw [RunWorld.past_iff]
  intro ph hle
  cases ph with
  | incoming => exact hd
  | _ => simp [RunPhase.rank] at hle

/-- A run that is past `processing` is in a terminal phase. -/
theorem RunWorld.terminal_of_past (h : w.view.Past .processing) (hp : w.Present) :
    (∃ d, w.dirs .done = some d) ∨ ∃ d, w.dirs .failed = some d := by
  rw [RunWorld.past_iff] at h
  obtain ⟨ph, d, hd⟩ := hp
  cases ph with
  | done => exact .inl ⟨d, hd⟩
  | failed => exact .inr ⟨d, hd⟩
  | incoming | ready | processing => exact nomatch hd.symm.trans (h _ (by decide))

end Presence

section Server

variable {Tid : Type} [DecidableEq Tid] {host : Host} {config : ServerConfig}
variable {bad : Fault Tid → Bool} {k : RunKey}
variable {c c' : Config Tid ServerOp ServerOp.Res (World Tid)}

/-- Every step of a run in which no collection deletes moves every run forward. -/
theorem Next.advance {d : Deed Tid ServerOp ServerOp.Choice ServerEvent}
    (hr : Reachable (server host config) (sparingPolicy host bad) c)
    (hn : Next (server host config) (sparingPolicy host bad) c d c') (k : RunKey) :
    Advance (c.world.runs k) (c'.world.runs k) := by
  have hinv' : (c'.world.runs k).view.Inv config k :=
    (reachable_calm (hr.next hn)).inv (lockContract_sound host config k)
  cases hn with
  | @call t o f x ht hx =>
    obtain ⟨now, hissued⟩ := (hr.only (fun p hp => Command.made hp) ht).1
    change (serverStep host t o x c.world).2.runs k |>.view.Inv config k at hinv'
    change Advance (c.world.runs k) ((serverStep host t o x c.world).2.runs k)
    cases o with
    | run k' o =>
      by_cases hk : k = k'
      · subst hk
        have hg := (reachable_calm hr).step_guar (lockContract_sound host config k) ht
          (hx.1.calm (reachable_spared hr k).pass : calmPolicy.step t (.run k o) x c.world)
        simp only [lockContract, server, if_true] at hg
        simp only [serverStep, World.setRun, Function.update_self] at hg hinv' ⊢
        have hremoves : o.removes = false := by
          have hs := hx.1.sweeps
          cases o <;> first | rfl | cases hs
        refine .of_effect (RunOp.step_effect host t hremoves x _ _) hissued.1 hinv' fun hop hp hnone => ?_
        have hm : (c.world.runs k).Mutates (o.step host t x c.world.clock (c.world.runs k)).2 := by
          refine .inl ⟨.processing, rfl, fun he => ?_⟩
          obtain ⟨d, hd⟩ := Option.ne_none_iff_exists'.1 hp
          simp [RunWorld.contents, hnone, hd] at he
        obtain rfl | h | ⟨_, _, _, _, ph, d, _, hd, _⟩ := hg.mutates hm
        · obtain h | ⟨_, h⟩ := hop <;> cases h
        · exact absurd h (by simp [hremoves])
        · refine ⟨ph, d, ?_, hd⟩
          rintro rfl
          cases hnone.symm.trans hd
      · simp only [serverStep, World.setRun, Function.update_of_ne hk]
        exact .refl _
    | nicknames => rcases x with ⟨_ | _, _⟩ <;> exact .refl _
    | runIds n ph => rcases x with ⟨_ | _, _⟩ <;> exact .refl _
    | _ => exact .refl _
  | leave ht hl => exact .of_dirs rfl
  | spawn ht hp => exact .refl _
  | env e he =>
    cases e with
    | tick now => exact .refl _
    | upload k' u =>
      change Advance (c.world.runs k) ((serverEvent (.upload k' u) c.world).runs k)
      by_cases hk : k = k'
      · subst hk
        simp only [serverEvent, World.setRun, Function.update_self]
        cases hd : (c.world.runs k).dirs .incoming with
        | none => exact .of_dirs (Function.update_eq_self_iff.2 hd.symm)
        | some d => exact .update hd rfl (by rintro ⟨⟩)
      · simp only [serverEvent, World.setRun, Function.update_of_ne hk]
        exact .refl _

end Server

end Purgery.Server
