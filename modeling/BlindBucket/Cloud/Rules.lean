import BlindBucket.Cloud.Asks
import BlindBucket.Cloud.Effects

/-!
# Proving programs of a deployment

The rules of `Lib/Service.lean` at the requests of a deployment, and what they say of the programs
that make no request which any set of rules restricts.
-/

namespace BlindBucket.Cloud

open BlindBucket.Stream ObjectMeta Service

variable {ρ : Type} {M : Regime Bucket Req Answer ρ} {i : Nat}
  {K : CloudWorld → Prop}

/-! ## Single requests -/

variable {q : Req} {α : Type}

theorem tryAsk_keeps {Mid : Answer q → CloudWorld → Prop} (hmay : ∀ w, M.inv w → K w → M.lets i w q → M.may i w q)
    (hstable : ∀ a, Stable M i (Mid a))
    (hserve : ∀ a w s, M.inv w → K w → M.lets i w q → M.serve w.state q a s → Mid a (w.after i q a s)) :
    (tryAsk q).Keeps M i K Mid := by
  refine Prog.Keeps.call hmay hstable hserve fun a => ?_
  intro w _ hk b hb
  rw [← Except.ok.inj hb]
  exact hk

theorem ask_keeps {Mid : q.Result → CloudWorld → Prop} (hmay : ∀ w, M.inv w → K w → M.lets i w q → M.may i w q)
    (hstable : ∀ r, Stable M i (Mid r)) (hserve : ∀ r w s, M.inv w → K w → M.lets i w q → M.serve w.state q (.ok r) s →
      Mid r (w.after i q (.ok r) s)) :
    (ask q).Keeps M i K Mid := by
  refine ⟨hmay, fun a => ⟨fun w => ∀ r, a = .ok r → Mid r w, ?_, ?_, ?_⟩⟩
  · exact Stable.forall fun r => Stable.imp fun _ => hstable r
  · intro w s hw hk hlets hs r ha
    subst ha
    exact hserve r w s hw hk hlets hs
  · intro w _ hk r hr
    cases a with
    | error f => simp [Except.mapError] at hr
    | ok r' =>
      rw [← Except.ok.inj hr]
      exact hk r' rfl

theorem bestEffort_keeps {F : CloudWorld → Prop} (hF : Firm M F)
    (hmay : ∀ w, M.inv w → K w → M.lets i w q → M.may i w q) (hK : ∀ w, M.inv w → K w → F w) :
    (bestEffort q).Keeps M i K fun _ => F := by
  have hask : (tryAsk q).Keeps M i K fun _ => F := by
    refine tryAsk_keeps hmay (fun _ => hF.stable) ?_
    intro a w s hw hk hlets hs
    exact hF.moves i w _ hw (hK w hw hk) ⟨q, a, s, hlets, hmay w hw hk hlets, hs, rfl⟩
  exact hask.bind fun _ => .pure fun _ _ hk => hk

theorem need_keeps {e : OpErr} {x : Option α} : (need e x).Keeps M i K fun a w => x = some a ∧ K w := by
  cases x with
  | none => exact .throw
  | some a => exact .pure fun w _ hk => ⟨rfl, hk⟩

theorem needOk_keeps {ε : Type} {e : OpErr} {x : Except ε α} :
    (needOk e x).Keeps M i K fun a w => x = .ok a ∧ K w := by
  cases x with
  | error _ => exact .throw
  | ok a => exact .pure fun w _ hk => ⟨rfl, hk⟩

theorem require_keeps {e : OpErr} {b : Bool} : (require e b).Keeps M i K fun _ w => b = true ∧ K w := by
  cases b with
  | false => exact .throw
  | true => exact .pure fun w _ hk => ⟨rfl, hk⟩

theorem parseMeta_keeps (G : Site) (md : Metadata) :
    (parseMeta G md).Keeps M i K fun m w => G.parse md = .ok m ∧ K w := by
  unfold parseMeta
  cases hp : G.parse md with
  | ok m => exact .pure fun w _ hk => ⟨rfl, hk⟩
  | error e =>
    dsimp only
    split
    · exact .throw
    · exact .throw

theorem storedLoc_keeps (G : Site) (bucket key : Bytes) :
    (storedLoc G bucket key).Keeps M i K fun l w => G.Stores bucket key l ∧ K w := by
  refine need_keeps.bind fun stored => ?_
  exact .pure fun w _ hk => ⟨⟨hk.1, rfl⟩, hk.2⟩

theorem unwrapDEK_keeps (G : Site) (bucket key kid wrapped : Bytes) :
    (unwrapDEK G bucket key kid wrapped).Keeps M i K fun dek w =>
      (∃ aad, Keys.objectAAD kid bucket key = .ok aad ∧ G.keys.unwrap kid wrapped aad = some dek) ∧ K w := by
  refine needOk_keeps.bind fun aad => .given fun haad => ?_
  exact need_keeps.imp fun dek w _ hk => ⟨⟨aad, haad, hk.1⟩, hk.2⟩

theorem clientMetadata_same (md : Metadata) : (clientMetadata md).Keeps M i K fun md' w =>
      md' = md ∧ (∀ e ∈ md, reserved e.1 = false) ∧ K w := by
  refine require_keeps.bind fun _ => ?_
  refine .pure fun w _ hk => ⟨rfl, fun e he => ?_, hk.2⟩
  have := List.all_eq_true.mp hk.1 e he
  simpa using this

theorem clientMetadata_keeps (md : Metadata) :
    (clientMetadata md).Keeps M i K fun md' w => (∀ e ∈ md', reserved e.1 = false) ∧ K w :=
  (clientMetadata_same md).imp fun _ _ _ hk => ⟨hk.1 ▸ hk.2.1, hk.2.2⟩

/-! ## Programs that need to know nothing -/

theorem tryAsk_tame (hmay : ∀ w, M.may i w q) : (tryAsk q).Tame M i :=
  (tryAsk_asks hmay).tame

theorem ask_tame (hmay : ∀ w, M.may i w q) : (ask q).Tame M i :=
  (ask_asks hmay).tame

theorem bestEffort_tame (hmay : ∀ w, M.may i w q) : (bestEffort q).Tame M i :=
  (bestEffort_asks hmay).tame

theorem rewrap_keeps (G : Site) (hq : Quiet fun q => ∀ w, M.may i w q) (r : CopyRequest) :
    (rewrap G r).Keeps M i (fun _ => True) fun wrapped _ => ∃ k,
      wrapped.1 = { r.source.info_meta with keyID := r.dest.keyID, wrappedDEK := k } :=
  .bind (unwrapDEK_asks G _ _ _ _).tame fun _ =>
    .bind (wrapDEK_asks hq _ _ _ _).tame fun k => .pure fun _ _ _ => ⟨k, rfl⟩

/-! ## What nobody undoes -/

section

variable {G : Site} {job : Nat → Job} {lets : Lets} {R : Rules Bucket Req Answer}

/-- What all effects of allowed requests preserve is not undone. The provider's own steps count as
aborts. -/
theorem firm_state {F : Bucket → Prop} (habort : ∀ w l u, R.may 0 w (.abort l u))
    (hstep : ∀ i w q s', R.inv w → F w.state → w.state.Effect G.toBackend G.base64 q s' →
      R.may i w q → F s') : Firm ⟨system G job lets, R⟩ fun w => F w.state where
  moves i w w' hw hk hm := by
    obtain ⟨q, a, s, -, hmay, hserve, rfl⟩ := hm
    exact hstep i w q s hw hk (Bucket.serve_effect hserve) hmay
  drifts w w' hw hk hd := by
    obtain ⟨s, hs, rfl⟩ := hd
    obtain ⟨l, u, he⟩ := Bucket.drift_effect G.toBackend G.base64 hs
    exact hstep 0 w _ s hw hk he (habort w l u)

end

theorem ReadsOnly.keeps (hq : Quiet fun q => ∀ w, M.may i w q) {p : Prog Req Answer α} (h : ReadsOnly p) :
    p.Keeps M i (fun _ => True) fun _ _ => True := by
  refine Prog.Asks.keeps h Stable.true (fun q w hr _ _ _ => hq q ?_ w) fun _ _ _ _ _ _ _ _ _ => trivial
  cases q <;> first | rfl | exact hr

theorem orAbort_keeps {p : Call Unit} {Good : Unit → CloudWorld → Prop}
    (habort : ∀ w l u, M.may i w (.abort l u)) (h : p.Keeps M i K Good) (l : Loc) (u : Nat) :
    (orAbort l u p).Keeps M i K Good := by
  refine (Act.Keeps.attempt h).bind fun res => ?_
  cases res with
  | ok a => exact .pure fun w _ hk => hk () rfl
  | error e =>
    have hab : (bestEffort (.abort l u)).Tame M i := bestEffort_tame fun w => habort w l u
    exact .bind (hab.weaken fun _ _ _ => trivial) fun _ => .throw

/-! ## Commands -/

/-- What is encrypted carries no metadata of the gateway's. -/
theorem judgePlain_none {G : Site} {r : EncryptRequest} {info : Info} (h : judgePlain G r info = none) :
    ∀ e ∈ info.metadata, reserved e.1 = false := by
  unfold judgePlain at h
  split at h
  · simp at h
  · split at h
    · simp at h
    · split at h
      · simp at h
      next hres =>
        intro e he
        by_contra hne
        exact hres (List.any_eq_true.mpr ⟨e, he, Bool.eq_true_of_not_eq_false hne⟩)

theorem head_etag {G : Site} {job : Nat → Job} {lets : Lets}
    {R : Rules Bucket Req Answer} (l : Loc) (hmay : ∀ w, R.may i w (.head l)) :
    (tryAsk (.head l)).Keeps ⟨system G job lets, R⟩ i (fun _ => True)
      fun a _ => ∀ info, a = .ok info → info.etag ≠ [] := by
  refine tryAsk_keeps (fun w _ _ _ => hmay w) (fun _ => Stable.const) ?_
  rintro a w s - - - hserve info rfl
  obtain ⟨-, v, -, rfl⟩ := Bucket.serve_head hserve
  exact G.etag_ne _

section

variable {G : Site} (hq : Quiet fun q => ∀ w, M.may i w q)

include hq

theorem copyObject_tame (hcopy : ∀ r, (copyDo G r).Tame M i) (r : CopyObjectRequest) :
    (copyObject G r).Tame M i := by
  refine require_asks.tame.bind fun _ => ?_
  refine storedLoc_asks.tame.bind fun src => ?_
  refine storedLoc_asks.tame.bind fun dst => ?_
  refine (ask_tame (hq _ rfl)).bind fun info => ?_
  refine require_asks.tame.bind fun _ => ?_
  refine (parseMeta_asks _ _).tame.bind fun m => ?_
  refine need_asks.tame.bind fun kid => ?_
  exact .bind (copiedMetadata_asks r info).tame fun _ => hcopy _

omit hq in
theorem rotateOne_keeps (Seen : Info → CloudWorld → Prop) (r : RotateRequest)
    (hhead : (tryAsk (.head ⟨r.bucket, r.stored⟩)).Keeps M i K fun a w => ∀ info, a = .ok info → Seen info w)
    (hback : ∀ info m, G.parse info.metadata = .ok m →
      (writeBack G r info m).Keeps M i (Seen info) fun _ _ => True) :
    (rotateOne G r).Keeps M i K fun _ _ => True := by
  refine .bind hhead fun a => ?_
  cases a with
  | error f => exact .pure fun _ _ _ => trivial
  | ok info =>
    dsimp only
    cases hp : G.parse info.metadata with
    | error e => exact .pure fun _ _ _ => trivial
    | ok m =>
      dsimp only
      split
      · exact .pure fun _ _ _ => trivial
      · split
        · exact .pure fun _ _ _ => trivial
        · refine .bind (.attempt ((hback info m hp).weaken fun _ _ hk => hk info rfl))
            (fun _ => .pure fun _ _ _ => trivial)

theorem migrateOne_tame (r : MigrateRequest) (hcopy : ∀ stored info m, (copyToEncrypted G r stored info m).Tame M i)
    (hdel : ∀ w, M.may i w (.delete r.plain)) (hman : ∀ w id, M.may i w (.deleteManifest r.plain id)) :
    (migrateOne G r).Tame M i := by
  have hdelete : ∀ m verdict, (finishMigration r m verdict).Tame M i := by
    intro m verdict
    refine .bind (.bind (tryAsk_tame hdel) fun a => ?_) fun _ => .pure _
    cases a with
    | error f => exact .pure _
    | ok _ =>
      dsimp only
      split
      · exact .pure _
      · exact .bind (bestEffort_tame fun w => hman w _) fun _ => .pure _
  have hto : ∀ stored info m, (attemptTo G r stored info m).Tame M i := by
    intro stored info m
    refine (tryAsk_tame (hq _ rfl)).bind fun a => ?_
    cases a with
    | error f =>
      dsimp only
      split
      · exact .pure _
      split
      · exact .pure _
      refine (Act.Tame.attempt (hcopy stored info m)).bind fun res => ?_
      cases res with
      | error e => exact .pure _
      | ok _ => exact hdelete _ _
    | ok encInfo =>
      dsimp only
      split
      · exact .pure _
      split
      · exact .pure _
      exact hdelete _ _
  have hone : (attemptMigrate G r).Tame M i := by
    refine (tryAsk_tame (hq _ rfl)).bind fun a => ?_
    cases a with
    | error f => exact .pure _
    | ok info =>
      dsimp only
      cases G.parse info.metadata with
      | error e => exact .pure _
      | ok m =>
        cases r.encryptKey r.identity with
        | error e => cases e <;> exact .pure _
        | ok stored => exact hto stored info m
  have hall : ∀ n, (migrateAttempts G r n).Tame M i := by
    intro n
    induction n with
    | zero => exact .pure _
    | succ n ih =>
      refine .bind hone fun got => ?_
      split
      · exact ih
      · exact .pure _
  exact hall maxAttempts

omit hq in
theorem encryptOne_tame {job : Nat → Job} {lets : Lets} {R : Rules Bucket Req Answer}
    (hq : Quiet fun q => ∀ w, R.may i w q) (r : EncryptRequest)
    (hwrite : ∀ l info c, judgePlain G r info = none →
      (r.allowUnconditional = false → c.ifMatch ≠ [] ∨ c.ifNoneMatch ≠ []) →
      (encryptWrite G r l info c).Tame ⟨system G job lets, R⟩ i)
    (hdel : ∀ w, R.may i w (.delete r.loc)) : (encryptOne G r).Tame ⟨system G job lets, R⟩ i := by
  have hto : ∀ stored info, judgePlain G r info = none → (encryptTo G r stored info).Tame ⟨system G job lets, R⟩ i := by
    intro stored info hj
    refine (tryAsk_tame (hq _ rfl)).bind fun a => ?_
    cases a with
    | error f =>
      dsimp only
      split
      · exact .pure _
      split
      · exact .pure _
      have hcond : r.allowUnconditional = false →
          (⟨[], if r.allowUnconditional then [] else GoText.ascii "*"⟩ : Cond).ifMatch ≠ []
            ∨ (⟨[], if r.allowUnconditional then [] else GoText.ascii "*"⟩ : Cond).ifNoneMatch ≠ [] := by
        intro hallow
        rw [hallow]
        exact .inr (by simp [GoText.ascii])
      refine (Act.Tame.attempt (hwrite _ info _ hj hcond)).bind fun res => ?_
      cases res with
      | error e => exact .pure _
      | ok _ => exact (deleteClear_asks r _ hdel).tame
    | ok encInfo =>
      dsimp only
      split
      · exact .pure _
      split
      · exact .pure _
      exact (deleteClear_asks r _ hdel).tame
  have hone : (attemptEncrypt G r).Tame ⟨system G job lets, R⟩ i := by
    refine (head_etag r.loc (hq _ rfl)).bind fun a => ?_
    cases a with
    | error f => exact .pure fun _ _ _ => trivial
    | ok info =>
      refine .weaken (.given fun hetag => ?_) (fun _ _ hk => ⟨hk info rfl, trivial⟩)
      dsimp only
      cases hj : judgePlain G r info with
      | some verdict => exact Act.Tame.pure _
      | none =>
        cases r.names with
        | none =>
          dsimp only
          unfold encryptInPlace
          split
          · exact Act.Tame.pure _
          · have hcond : r.allowUnconditional = false →
                (⟨if r.allowUnconditional then [] else info.etag, []⟩ : Cond).ifMatch ≠ []
                  ∨ (⟨if r.allowUnconditional then [] else info.etag, []⟩ : Cond).ifNoneMatch ≠ [] := by
              intro hallow
              rw [hallow]
              exact .inl hetag
            refine (Act.Tame.attempt (hwrite _ info _ hj hcond)).bind fun res => ?_
            cases res <;> exact .pure _
        | some encryptKey =>
          dsimp only
          cases encryptKey r.key with
          | error e => cases e <;> exact Act.Tame.pure _
          | ok stored => exact hto stored info hj
  have hall : ∀ n, (encryptAttempts G r n).Tame ⟨system G job lets, R⟩ i := by
    intro n
    induction n with
    | zero => exact .pure _
    | succ n ih =>
      refine .bind hone fun got => ?_
      split
      · exact ih
      · exact .pure _
  exact hall maxAttempts

end

theorem ended_keeps {p : Call α} {Good : α → CloudWorld → Prop} (h : p.Keeps M i K Good) :
    (ended p).Keeps M i K fun _ _ => True := by
  refine Prog.Keeps.bind h fun res => ?_
  cases res with
  | ok a | error e => exact fun _ _ _ => trivial

theorem endedTags_keeps {p : Call (List TagOp)} {Good : List TagOp → CloudWorld → Prop}
    (h : p.Keeps M i K Good) : (endedTags p).Keeps M i K fun _ _ => True := by
  refine Prog.Keeps.bind h fun res => ?_
  cases res with
  | ok a | error e => exact fun _ _ _ => trivial

end BlindBucket.Cloud
