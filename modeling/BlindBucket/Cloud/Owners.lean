import BlindBucket.Cloud.Manifests
import BlindBucket.Cloud.Rewrites

/-!
# What no two share

In all that can be reached, whatever runs beside whatever: an upload is one program's, a wrapped key is one program's and
one object's, and a manifest is one upload's.
-/

namespace BlindBucket.Cloud

open BlindBucket.Stream ObjectMeta Service

variable {G : Site} {job : Nat → Job} {lets : Lets} {s s₀ : Bucket} {q : Req} {i : Nat}
  {w : CloudWorld} {c : CloudConf}

/-- **A manifest is named by one upload**, or by the object of its key that came of it. -/
theorem manifests_owned (h₀ : s₀.Sane G.base64) (h : Reach (system G job lets) s₀ c) : ManifestInv G.base64 c.world :=
  Reach.inv manifestRules_sound manifest_starters (manifestInv_init h₀) h

theorem manifests_owned_upload : ManifestInv smallSite.base64 uploadRun.world :=
  manifests_owned (Bucket.empty_sane _) (runOf_reach _ _ _ _)

/-- A `bb-dek` has one holder at most. -/
def Bucket.OneHolder (s : Bucket) : Prop := ∀ n a b, n ≠ [] → s.Holds n a → s.Holds n b → a = b

theorem oneHolder_step (hI : w.state.OneHolder) (hmay : wrapMay G.base64 job i w q)
    (he : w.state.Effect G.toBackend G.base64 q s) : s.OneHolder := by
  intro n a b hn ha hb
  have hnew : ∀ {md x}, q.metadata = some md → storedDEK md = n → ¬ w.state.Holds n x := by
    intro md x hmd hdek hx
    obtain ⟨-, -, -, -, hunused⟩ := wrapMay_metadata hmay hmd
    exact hunused (.inl (hdek ▸ Bucket.uses_iff.mpr ⟨x, hx⟩))
  have hold : ∀ {a b}, s.Holds n a → s.Holds n b → w.state.Holds n a → a = b := by
    intro a b ha hb ha'
    rcases holds_effect he hb with hb' | ⟨md, hmd, hdek, -⟩ | ⟨l, u, _, _, -, rfl, hu, hgone⟩
    · exact hI n a b hn ha' hb'
    · exact absurd ha' (hnew hmd hdek)
    · -- the upload that was completed is the other holder, and it is closed
      rw [hI n a (.inr u) hn ha' hu] at ha
      obtain ⟨up, hup, -⟩ := ha
      exact absurd (hgone.symm.trans hup) (by simp)
  rcases holds_effect he ha with ha' | ⟨md, hmd, hdek, rfl⟩ | ⟨l, u, _, _, rfl, rfl, -⟩
  · exact hold ha hb ha'
  · rcases holds_effect he hb with hb' | ⟨-, -, -, rfl⟩ | ⟨l, u, _, _, rfl, -⟩
    · exact (hold hb ha hb').symm
    · rfl
    · simp [Req.metadata] at hmd
  · rcases holds_effect he hb with hb' | ⟨md, hmd, -⟩ | ⟨_, _, _, _, hq, rfl, -⟩
    · exact (hold hb ha hb').symm
    · simp [Req.metadata] at hmd
    · cases hq
      rfl

/-- **A `bb-dek` is one object's or one upload's**, in all that can be reached. -/
theorem wrapped_key_one_holder (hsize : G.keys.Sized) (h₀ : s₀.Ranked) (hl : s₀.Labelled G.base64)
    (hone : s₀.OneHolder) (h : Reach (system G job lets) s₀ c) : c.world.state.OneHolder := by
  refine Reach.always (I := fun w => w.state.OneHolder) ?_ ?_ hone (reach_wraps hsize h₀ hl h)
  · intro i w q a s hI hlets hserve
    exact oneHolder_step hI hlets.2.2 (Bucket.serve_effect hserve)
  · intro w s hI hs
    obtain ⟨l, u, he⟩ := Bucket.drift_effect G.toBackend G.base64 hs
    exact oneHolder_step hI (show wrapMay G.base64 job 0 w (.abort l u) from trivial) he

/-- A copy has come between the rotation's check for other uploads and its completion. -/
def crossingMoves : List (Move Choice) :=
  [.start 0, .ask 0 {}, .ask 0 (.bytes 12 2), .ask 0 {}, .ask 0 {}, .ask 0 {}, .ask 0 {},
    .start 1, .ask 1 {}, .ask 1 (.bytes 12 3), .ask 1 {}, .ask 1 {}]

def crossingRun : CloudConf :=
  runOf steadySite rewriteJobs steadyPut.world.state crossingMoves

/-- After a `PUT`, with the copy visible and the upload of the rotation open. -/
theorem wrapped_key_one_holder_crossing : crossingRun.world.state.visible.entries.length = 1
    ∧ crossingRun.world.state.uploads.entries.length = 1 ∧ crossingRun.world.state.OneHolder := by
  have hempty : Bucket.empty.OneHolder := by
    rintro n (l | u) b - ⟨v, hv, -⟩
    · simp [Bucket.empty] at hv
    · simp [Bucket.empty] at hv
  have hput : steadyPut.world.state.OneHolder :=
    wrapped_key_one_holder clearKeys_sized Bucket.empty_ranked (Bucket.empty_labelled _) hempty (runOf_reach _ _ _ _)
  refine ⟨by decide +kernel, by decide +kernel, ?_⟩
  exact wrapped_key_one_holder clearKeys_sized steadyPut_labelled.1 steadyPut_labelled.2 hput (runOf_reach _ _ _ _)

end BlindBucket.Cloud
