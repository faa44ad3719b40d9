import NexgileIde.AgentHost.ProtocolServerHandler

/-!
# Restoring the subscriptions of a client

While the subscriptions are restored none of them is active. Once they are activated a client
holds those that it asked for and that are not reported as missing, and so an envelope is
relevant to it if it concerns one of them.
-/
namespace NexgileIde.AgentHost

variable {A : Type}

/-! ## Subscriptions -/

/-- The subscriptions that were asked for and not reported as missing. -/
def restoredSubscriptions (names : ChannelNames) (subscriptions missing : List String) :
    List ChannelSubscription :=
  subscriptions.filterMap fun sub =>
    if missing.contains sub then none else classifyChannel names sub

def restoredChannels (names : ChannelNames) (subscriptions missing : List String) : List String :=
  (restoredSubscriptions names subscriptions missing).filterMap ChannelSubscription.activeUri

section

variable {names : ChannelNames}

theorem isOtlpChannel_build (level : OtlpLogLevelName) :
    isOtlpChannel (buildOtlpLogsChannelUri level) = true := by
  cases level <;> decide +kernel

/-- A channel is that of a log stream, or it is the uri of its subscription. -/
theorem classifyChannel_cases {sub : String} {classified : ChannelSubscription}
    (h : classifyChannel names sub = some classified) :
    (isOtlpChannel sub = true ∧ isOtlpChannel classified.uri = true ∧
      ∃ level, classified = .OtlpLogs (buildOtlpLogsChannelUri level) level) ∨
    (isOtlpChannel sub = false ∧
      (classified = .ResourceWatch sub true ∨ classified = .State sub true)) := by
  unfold classifyChannel at h
  split at h
  · next hotlp =>
    split at h
    · cases h
    · next level _ =>
      cases h
      exact .inl ⟨hotlp, isOtlpChannel_build level, level, rfl⟩
  · next hotlp =>
    rw [Bool.not_eq_true] at hotlp
    split at h <;> cases h
    · exact .inr ⟨hotlp, .inl rfl⟩
    · exact .inr ⟨hotlp, .inr rfl⟩

theorem uri_of_classify {sub : String} {classified : ChannelSubscription}
    (h : classifyChannel names sub = some classified)
    (hotlp : isOtlpChannel classified.uri = false) :
    classified.uri = sub ∧ isOtlpChannel sub = false := by
  rcases classifyChannel_cases h with ⟨-, hotlp', -⟩ | ⟨hsub, rfl | rfl⟩
  · rw [hotlp] at hotlp'
    cases hotlp'
  · exact ⟨rfl, hsub⟩
  · exact ⟨rfl, hsub⟩

theorem uri_of_not_otlp {sub : String} {classified : ChannelSubscription}
    (h : classifyChannel names sub = some classified) (hsub : isOtlpChannel sub = false) :
    classified.uri = sub := by
  rcases classifyChannel_cases h with ⟨hotlp, -⟩ | ⟨-, rfl | rfl⟩
  · rw [hsub] at hotlp
    cases hotlp
  · rfl
  · rfl

theorem relevant_congr {envelope : ActionEnvelope A} {uris uris' : List String}
    (h : ∀ uri, uri ∈ uris ↔ uri ∈ uris') :
    isActionEnvelopeRelevantToSubscriptionUris names envelope uris =
      isActionEnvelopeRelevantToSubscriptionUris names envelope uris' := by
  have hany : ∀ p : String → Bool, uris.any p = uris'.any p := by
    intro p
    rw [Bool.eq_iff_iff, List.any_eq_true, List.any_eq_true]
    simp only [h]
  unfold isActionEnvelopeRelevantToSubscriptionUris
  simp only [hany]

theorem relevant_of_mem {envelope : ActionEnvelope A} {uris : List String}
    (h : envelope.channel ∈ uris) :
    isActionEnvelopeRelevantToSubscriptionUris names envelope uris = true := by
  unfold isActionEnvelopeRelevantToSubscriptionUris
  split
  · next hroot => exact List.any_eq_true.2 ⟨_, h, hroot⟩
  · split
    · next hcatalog => exact List.any_eq_true.2 ⟨_, h, hcatalog⟩
    · exact List.any_eq_true.2 ⟨_, h, by simp⟩

end

/-! ## Restores -/

/-- The restores of these subscriptions have begun, and may have settled. -/
structure Begun (names : ChannelNames) (begun : List String)
    (subscriptions : AList fun _ : String => ChannelSubscription) (restore : Restore) : Prop where
  /-- Every subscription is inactive. -/
  held : ∀ uri sub, subscriptions.lookup uri = some sub →
    sub.uri = uri ∧ sub.pending = sub ∧ uri ∈ restore.restoredUris ∧
      (isOtlpChannel uri = false →
        ∃ classified, classifyChannel names uri = some classified ∧ classified.pending = sub)
  logs : ∀ uri sub, subscriptions.lookup uri = some sub → isOtlpChannel uri = true →
    ∃ level, sub = .OtlpLogs uri level
  restored : ∀ uri, uri ∈ restore.restoredUris ↔
    ∃ sub ∈ begun, ∃ classified, classifyChannel names sub = some classified ∧ classified.uri = uri
  pendings : ∀ sub ∈ restore.pendingSubscriptions, isOtlpChannel sub.uri = false ∧
    classifyChannel names sub.uri = some sub
  found : ∀ uri ∈ begun, isOtlpChannel uri = false → ∀ classified,
    classifyChannel names uri = some classified → uri ∉ restore.missing →
      classified ∈ restore.pendingSubscriptions ∧
        subscriptions.lookup uri = some classified.pending
  missing : ∀ uri ∈ restore.missing, isOtlpChannel uri = false ∧ uri ∈ restore.restoredUris ∧
    subscriptions.lookup uri = none
  awaited : ∀ uri ∈ restore.awaited, uri ∈ begun ∧ isOtlpChannel uri = false ∧
    classifyChannel names uri = some (.State uri true)

namespace Begun

variable {names : ChannelNames} {begun : List String}
  {subscriptions : AList fun _ : String => ChannelSubscription} {restore : Restore}

/-- A channel whose restore has not begun. -/
theorem fresh (h : Begun names begun subscriptions restore) {uri : String}
    (hnew : uri ∉ restore.restoredUris) :
    subscriptions.lookup uri = none ∧ uri ∉ restore.missing := by
  constructor
  · by_contra hheld
    obtain ⟨held, hheld⟩ := Option.ne_none_iff_exists'.1 hheld
    exact hnew (h.held _ _ hheld).2.2.1
  · exact fun hmissing => hnew (h.missing _ hmissing).2.1

/-- The set of the restored uris after one more restore. -/
theorem restored_append (h : Begun names begun subscriptions restore) {sub : String}
    {classified : ChannelSubscription} (hclassify : classifyChannel names sub = some classified)
    (uri : String) : uri ∈ classified.uri :: restore.restoredUris ↔
      ∃ sub' ∈ begun ++ [sub], ∃ classified', classifyChannel names sub' = some classified' ∧
        classified'.uri = uri := by
  rw [List.mem_cons, h.restored]
  constructor
  · rintro (rfl | ⟨sub', hsub', hrest⟩)
    · exact ⟨sub, by simp, classified, hclassify, rfl⟩
    · exact ⟨sub', by simp [hsub'], hrest⟩
  · rintro ⟨sub', hsub', classified', hclassify', rfl⟩
    rcases List.mem_append.1 hsub' with hsub' | hsub'
    · exact .inr ⟨sub', hsub', classified', hclassify', rfl⟩
    · rw [List.mem_singleton.1 hsub', hclassify, Option.some.injEq] at hclassify'
      exact .inl (by rw [hclassify'])

/-- A subscription that is skipped, since it has no channel or that of an earlier one. -/
theorem skip (h : Begun names begun subscriptions restore) {sub : String}
    (hskip : ∀ classified, classifyChannel names sub = some classified →
      classified.uri ∈ restore.restoredUris) :
    Begun names (begun ++ [sub]) subscriptions restore where
  held := h.held
  logs := h.logs
  restored uri := by
    rw [h.restored]
    constructor
    · rintro ⟨sub', hsub', hrest⟩
      exact ⟨sub', by simp [hsub'], hrest⟩
    · rintro ⟨sub', hsub', classified, hclassify, rfl⟩
      rcases List.mem_append.1 hsub' with hsub' | hsub'
      · exact ⟨sub', hsub', classified, hclassify, rfl⟩
      · rw [List.mem_singleton.1 hsub'] at hclassify
        exact (h.restored _).1 (hskip _ hclassify)
  pendings := h.pendings
  found uri huri hotlp classified hclassify hmissing := by
    rcases List.mem_append.1 huri with huri | huri
    · exact h.found uri huri hotlp classified hclassify hmissing
    · obtain rfl := List.mem_singleton.1 huri
      have hskipped := hskip _ hclassify
      rw [uri_of_not_otlp hclassify hotlp] at hskipped
      obtain ⟨sub', hsub', classified', hclassify', rfl⟩ := (h.restored _).1 hskipped
      obtain ⟨heq, -⟩ := uri_of_classify hclassify' hotlp
      exact h.found _ (heq ▸ hsub') hotlp classified hclassify hmissing
  missing := h.missing
  awaited uri huri := by
    have := h.awaited uri huri
    exact ⟨by simp [this.1], this.2⟩

/-- A subscription to a log stream is there at once. -/
theorem otlp (h : Begun names begun subscriptions restore) {sub : String}
    {classified : ChannelSubscription} (hclassify : classifyChannel names sub = some classified)
    (hotlp : isOtlpChannel sub = true) (installed : Bool) :
    Begun names (begun ++ [sub])
      (if installed then subscriptions.insert classified.uri classified else subscriptions)
      { restore with restoredUris := classified.uri :: restore.restoredUris } := by
  obtain ⟨-, hotlp', level, hlevel⟩ | ⟨hsub, -⟩ := classifyChannel_cases hclassify
  swap
  · rw [hotlp] at hsub
    cases hsub
  have hpending : classified.pending = classified := by rw [hlevel]; rfl
  have hother : ∀ uri, isOtlpChannel uri = false →
      (if installed then subscriptions.insert classified.uri classified else
        subscriptions).lookup uri = subscriptions.lookup uri := by
    intro uri huri
    have hne : uri ≠ classified.uri := by
      rintro rfl
      rw [huri] at hotlp'
      cases hotlp'
    cases installed
    · rfl
    · exact AList.lookup_insert_ne hne
  have hheld : ∀ uri held, (if installed then subscriptions.insert classified.uri classified else
      subscriptions).lookup uri = some held →
        uri = classified.uri ∧ held = classified ∨ subscriptions.lookup uri = some held := by
    intro uri held hlookup
    cases installed
    · exact .inr hlookup
    · by_cases heq : uri = classified.uri
      · subst heq
        rw [if_pos rfl, AList.lookup_insert] at hlookup
        exact .inl ⟨rfl, (Option.some.inj hlookup).symm⟩
      · rw [if_pos rfl, AList.lookup_insert_ne heq] at hlookup
        exact .inr hlookup
  constructor
  · intro uri held hlookup
    rcases hheld uri held hlookup with ⟨rfl, rfl⟩ | hlookup
    · refine ⟨rfl, hpending, List.mem_cons_self, fun hfalse => ?_⟩
      rw [hotlp'] at hfalse
      cases hfalse
    · obtain ⟨huri, hinactive, hrestored, hrest⟩ := h.held uri held hlookup
      exact ⟨huri, hinactive, List.mem_cons_of_mem _ hrestored, hrest⟩
  · intro uri held hlookup htrue
    rcases hheld uri held hlookup with ⟨rfl, rfl⟩ | hlookup
    · exact ⟨level, by rw [hlevel]; rfl⟩
    · exact h.logs uri held hlookup htrue
  · exact h.restored_append hclassify
  · exact h.pendings
  · intro uri huri hfalse classified' hclassify' hmissing
    rcases List.mem_append.1 huri with huri | huri
    · obtain ⟨hpendings, hlookup⟩ := h.found uri huri hfalse classified' hclassify' hmissing
      exact ⟨hpendings, (hother uri hfalse).trans hlookup⟩
    · rw [List.mem_singleton.1 huri, hotlp] at hfalse
      cases hfalse
  · intro uri huri
    obtain ⟨hfalse, hrestored, hlookup⟩ := h.missing uri huri
    exact ⟨hfalse, List.mem_cons_of_mem _ hrestored, (hother uri hfalse).trans hlookup⟩
  · intro uri huri
    have := h.awaited uri huri
    exact ⟨by simp [this.1], this.2⟩

/-- A resource watch that no longer parses. -/
theorem failed (h : Begun names begun subscriptions restore) {sub : String}
    {classified : ChannelSubscription} (hclassify : classifyChannel names sub = some classified)
    (hsub : isOtlpChannel sub = false) (hnew : classified.uri ∉ restore.restoredUris) :
    Begun names (begun ++ [sub]) subscriptions
      { restore with
        restoredUris := classified.uri :: restore.restoredUris
        missing := restore.missing ++ [sub] } := by
  have huri := uri_of_not_otlp hclassify hsub
  constructor
  · intro uri held hlookup
    obtain ⟨huri, hinactive, hrestored, hrest⟩ := h.held uri held hlookup
    exact ⟨huri, hinactive, List.mem_cons_of_mem _ hrestored, hrest⟩
  · exact h.logs
  · exact h.restored_append hclassify
  · exact h.pendings
  · intro uri hbegun hfalse classified' hclassify' hmissing
    rw [List.mem_append, List.mem_singleton, not_or] at hmissing
    rcases List.mem_append.1 hbegun with hbegun | hbegun
    · exact h.found uri hbegun hfalse classified' hclassify' hmissing.1
    · exact absurd (List.mem_singleton.1 hbegun) hmissing.2
  · intro uri hmissing
    rcases List.mem_append.1 hmissing with hmissing | hmissing
    · obtain ⟨hfalse, hrestored, hlookup⟩ := h.missing uri hmissing
      exact ⟨hfalse, List.mem_cons_of_mem _ hrestored, hlookup⟩
    · obtain rfl := List.mem_singleton.1 hmissing
      exact ⟨hsub, by simp [huri], huri ▸ (h.fresh hnew).1⟩
  · intro uri hawaited
    have := h.awaited uri hawaited
    exact ⟨by simp [this.1], this.2⟩

/-- A subscription that waits to be activated. -/
theorem pending (h : Begun names begun subscriptions restore) {sub : String}
    {classified : ChannelSubscription} (hclassify : classifyChannel names sub = some classified)
    (hsub : isOtlpChannel sub = false) (hnew : classified.uri ∉ restore.restoredUris)
    {awaited : List String}
    (hawaited : ∀ uri ∈ awaited, uri ∈ restore.awaited ∨
      uri = sub ∧ classified = .State sub true) :
    Begun names (begun ++ [sub])
      (subscriptions.insert classified.pending.uri classified.pending)
      { restore with
        restoredUris := classified.uri :: restore.restoredUris
        pendingSubscriptions := restore.pendingSubscriptions ++ [classified]
        awaited } := by
  have huri := uri_of_not_otlp hclassify hsub
  have hpending : classified.pending.uri = sub ∧
      classified.pending.pending = classified.pending := by
    rcases classifyChannel_cases hclassify with ⟨hotlp, -⟩ | ⟨-, rfl | rfl⟩
    · rw [hsub] at hotlp
      cases hotlp
    · exact ⟨rfl, rfl⟩
    · exact ⟨rfl, rfl⟩
  rw [hpending.1]
  rw [huri] at hnew
  constructor
  · intro uri held hlookup
    by_cases heq : uri = sub
    · subst heq
      rw [AList.lookup_insert] at hlookup
      cases hlookup
      exact ⟨hpending.1, hpending.2, by simp [huri], fun _ => ⟨classified, hclassify, rfl⟩⟩
    · rw [AList.lookup_insert_ne heq] at hlookup
      obtain ⟨huri, hinactive, hrestored, hrest⟩ := h.held uri held hlookup
      exact ⟨huri, hinactive, List.mem_cons_of_mem _ hrestored, hrest⟩
  · intro uri held hlookup htrue
    have hne : uri ≠ sub := by
      rintro rfl
      rw [hsub] at htrue
      cases htrue
    rw [AList.lookup_insert_ne hne] at hlookup
    exact h.logs uri held hlookup htrue
  · exact h.restored_append hclassify
  · intro held hheld
    rcases List.mem_append.1 hheld with hheld | hheld
    · exact h.pendings held hheld
    · rw [List.mem_singleton.1 hheld, huri]
      exact ⟨hsub, hclassify⟩
  · intro uri hbegun hfalse classified' hclassify' hmissing
    by_cases heq : uri = sub
    · subst heq
      obtain rfl := Option.some.inj (hclassify.symm.trans hclassify')
      exact ⟨by simp, AList.lookup_insert _⟩
    · have hbegun : uri ∈ begun := by simpa [heq] using hbegun
      obtain ⟨hpendings, hlookup⟩ := h.found uri hbegun hfalse classified' hclassify' hmissing
      exact ⟨by simp [hpendings], (AList.lookup_insert_ne heq).trans hlookup⟩
  · intro uri hmissing
    obtain ⟨hfalse, hrestored, hlookup⟩ := h.missing uri hmissing
    have hne : uri ≠ sub := by
      rintro rfl
      exact hnew hrestored
    exact ⟨hfalse, List.mem_cons_of_mem _ hrestored, (AList.lookup_insert_ne hne).trans hlookup⟩
  · intro uri huri
    rcases hawaited uri huri with huri | ⟨rfl, rfl⟩
    · have := h.awaited uri huri
      exact ⟨by simp [this.1], this.2⟩
    · exact ⟨by simp, hsub, hclassify⟩

/-- A subscription that has settled. -/
theorem settle (h : Begun names begun subscriptions restore) (sub : String) :
    Begun names begun subscriptions
      { restore with awaited := restore.awaited.filter (· ≠ sub) } :=
  { h with awaited := fun uri huri => h.awaited uri (List.mem_filter.1 huri).1 }

theorem settle_failed (h : Begun names begun subscriptions restore) {sub : String}
    (hawaited : sub ∈ restore.awaited) :
    Begun names begun
      (if subscriptions.lookup sub = some (ChannelSubscription.State sub false) then
        subscriptions.erase sub else subscriptions)
      { restore with
        awaited := restore.awaited.filter (· ≠ sub)
        missing := restore.missing ++ [sub] } := by
  obtain ⟨hbegun, hsub, hclassify⟩ := h.awaited sub hawaited
  have hlookup : ∀ uri, (if subscriptions.lookup sub = some (ChannelSubscription.State sub false)
      then subscriptions.erase sub else subscriptions).lookup uri =
        if uri = sub then none else subscriptions.lookup uri := by
    intro uri
    split
    · split
      · next heq => rw [heq, AList.lookup_erase]
      · next hne => exact AList.lookup_erase_ne hne
    · next hother =>
      split
      · next heq =>
        subst heq
        by_cases hmissing : uri ∈ restore.missing
        · exact (h.missing uri hmissing).2.2
        · exact absurd (h.found uri hbegun hsub _ hclassify hmissing).2 hother
      · rfl
  constructor
  · intro uri held hheld
    rw [hlookup] at hheld
    split at hheld
    · cases hheld
    · exact h.held uri held hheld
  · intro uri held hheld
    rw [hlookup] at hheld
    split at hheld
    · cases hheld
    · exact h.logs uri held hheld
  · exact h.restored
  · exact h.pendings
  · intro uri huri hfalse classified hclassify' hmissing
    rw [List.mem_append, List.mem_singleton, not_or] at hmissing
    obtain ⟨hpendings, hfound⟩ := h.found uri huri hfalse classified hclassify' hmissing.1
    exact ⟨hpendings, by rw [hlookup, if_neg hmissing.2, hfound]⟩
  · intro uri hmissing
    rcases List.mem_append.1 hmissing with hmissing | hmissing
    · obtain ⟨hfalse, hrestored, hnone⟩ := h.missing uri hmissing
      exact ⟨hfalse, hrestored, by rw [hlookup, hnone, ite_self]⟩
    · obtain rfl := List.mem_singleton.1 hmissing
      have hrestored : uri ∈ restore.restoredUris :=
        (h.restored uri).2 ⟨uri, hbegun, _, hclassify, rfl⟩
      exact ⟨hsub, hrestored, by rw [hlookup, if_pos rfl]⟩
  · exact fun uri huri => h.awaited uri (List.mem_filter.1 huri).1

end Begun

/-! ## Activation -/

section

variable {names : ChannelNames} {client : ConnectedClient A} {pendings : List ChannelSubscription}
  {uri : String}

open ProtocolServer

theorem lookup_activate_other (h : ∀ sub ∈ pendings, sub.uri ≠ uri) :
    (activateSubscriptions client pendings).subscriptions.lookup uri =
      client.subscriptions.lookup uri := by
  induction pendings generalizing client with
  | nil => rfl
  | cons sub pendings ih =>
    refine (ih fun sub hsub => h sub (List.mem_cons_of_mem _ hsub)).trans ?_
    dsimp only
    split
    · exact AList.lookup_insert_ne (h sub List.mem_cons_self).symm
    · rfl

theorem lookup_activate_none (h : client.subscriptions.lookup uri = none) :
    (activateSubscriptions client pendings).subscriptions.lookup uri = none := by
  induction pendings generalizing client with
  | nil => exact h
  | cons sub pendings ih =>
    apply ih
    dsimp only
    split
    · next hpending =>
      have hne : uri ≠ sub.uri := by
        rintro rfl
        rw [h] at hpending
        cases hpending
      exact (AList.lookup_insert_ne hne).trans h
    · exact h

theorem lookup_activate {classified : ChannelSubscription}
    (hpendings : ∀ sub ∈ pendings, classifyChannel names sub.uri = some sub)
    (huri : classified.uri = uri) (hclassify : classifyChannel names uri = some classified)
    (h : client.subscriptions.lookup uri = some classified ∨
      classified ∈ pendings ∧ client.subscriptions.lookup uri = some classified.pending) :
    (activateSubscriptions client pendings).subscriptions.lookup uri = some classified := by
  induction pendings generalizing client with
  | nil => exact h.resolve_right fun hmem => List.not_mem_nil hmem.1
  | cons sub pendings ih =>
    apply ih fun sub hsub => hpendings sub (List.mem_cons_of_mem _ hsub)
    dsimp only
    by_cases heq : sub.uri = uri
    · obtain rfl : classified = sub := by
        have hsub := hpendings sub List.mem_cons_self
        rw [heq, hclassify] at hsub
        exact Option.some.inj hsub
      left
      split
      · rw [← huri]
        exact AList.lookup_insert _
      · next hother =>
        rcases h with h | ⟨-, h⟩
        · exact h
        · exact absurd (huri.symm ▸ h) hother
    · have hsame : (if client.subscriptions.lookup sub.uri = some sub.pending then
          setSubscription client sub else client).subscriptions.lookup uri =
            client.subscriptions.lookup uri := by
        split
        · exact AList.lookup_insert_ne (Ne.symm heq)
        · rfl
      rw [hsame]
      refine h.imp_right fun ⟨hmem, hlookup⟩ => ⟨?_, hlookup⟩
      rcases List.mem_cons.1 hmem with rfl | hmem
      · exact absurd huri heq
      · exact hmem

theorem activate_fields : (activateSubscriptions client pendings).clientId = client.clientId ∧
    (activateSubscriptions client pendings).sent = client.sent := by
  induction pendings generalizing client with
  | nil => exact ⟨rfl, rfl⟩
  | cons sub pendings ih =>
    obtain ⟨hid, hsent⟩ := @ih (if client.subscriptions.lookup sub.uri = some sub.pending then
      setSubscription client sub else client)
    refine ⟨hid.trans ?_, hsent.trans ?_⟩
    · split <;> rfl
    · split <;> rfl

variable {restore : Restore} {subscriptions : List String}

/-- After the activation a client holds what was restored. -/
theorem Begun.lookup_activated (h : Begun names subscriptions client.subscriptions restore)
    (hotlp : isOtlpChannel uri = false) {classified : ChannelSubscription} :
    (activateSubscriptions client restore.pendingSubscriptions).subscriptions.lookup uri =
        some classified ↔
      uri ∈ subscriptions ∧ uri ∉ restore.missing ∧
        classifyChannel names uri = some classified := by
  have hpendings := fun sub hsub => (h.pendings sub hsub).2
  constructor
  · intro hlookup
    have hheld : client.subscriptions.lookup uri ≠ none := by
      intro hnone
      rw [lookup_activate_none hnone] at hlookup
      cases hlookup
    obtain ⟨held, hheld⟩ := Option.ne_none_iff_exists'.1 hheld
    obtain ⟨-, -, hrestored, hclassified⟩ := h.held uri held hheld
    obtain ⟨classified', hclassify, -⟩ := hclassified hotlp
    have huri := uri_of_not_otlp hclassify hotlp
    obtain ⟨sub, hsub, classified'', hclassify'', heq⟩ := (h.restored uri).1 hrestored
    obtain ⟨rfl, -⟩ : classified''.uri = sub ∧ _ := uri_of_classify hclassify'' (heq ▸ hotlp)
    rw [heq] at hsub
    have hmissing : uri ∉ restore.missing := by
      intro hmissing
      rw [(h.missing _ hmissing).2.2] at hheld
      cases hheld
    have hactive := lookup_activate hpendings huri hclassify
      (.inr (h.found _ hsub hotlp _ hclassify hmissing))
    exact ⟨hsub, hmissing, hclassify.trans (hactive.symm.trans hlookup)⟩
  · rintro ⟨hsub, hmissing, hclassify⟩
    exact lookup_activate hpendings (uri_of_not_otlp hclassify hotlp) hclassify
      (.inr (h.found _ hsub hotlp _ hclassify hmissing))

theorem Begun.lookup_logs (h : Begun names subscriptions client.subscriptions restore)
    (hotlp : isOtlpChannel uri = true) :
    (activateSubscriptions client restore.pendingSubscriptions).subscriptions.lookup uri =
      client.subscriptions.lookup uri := by
  apply lookup_activate_other
  rintro sub hsub rfl
  rw [(h.pendings sub hsub).1] at hotlp
  cases hotlp

theorem Begun.uri_activated (h : Begun names subscriptions client.subscriptions restore)
    {sub : ChannelSubscription}
    (hlookup : (activateSubscriptions client
      restore.pendingSubscriptions).subscriptions.lookup uri = some sub) : sub.uri = uri := by
  cases hotlp : isOtlpChannel uri
  · exact uri_of_not_otlp ((h.lookup_activated hotlp).1 hlookup).2.2 hotlp
  · rw [h.lookup_logs hotlp] at hlookup
    exact (h.held uri sub hlookup).1

/-- The uris of one kind that a client then holds. -/
theorem Begun.mem_activated (h : Begun names subscriptions client.subscriptions restore)
    (uriOf : ChannelSubscription → Option String)
    (hnone : ∀ uri level, uriOf (.OtlpLogs uri level) = none) (uri : String) :
    uri ∈ (activateSubscriptions client restore.pendingSubscriptions).subscriptions.entries.filterMap
        (fun entry => uriOf entry.2) ↔
      uri ∈ (restoredSubscriptions names subscriptions restore.missing).filterMap uriOf := by
  unfold restoredSubscriptions
  simp only [List.mem_filterMap]
  constructor
  · rintro ⟨⟨key, sub⟩, hentry, huri⟩
    have hlookup := AList.mem_lookup_iff.2 hentry
    have hotlp : isOtlpChannel key = false := by
      by_contra hotlp
      rw [Bool.not_eq_false] at hotlp
      rw [Option.mem_def, h.lookup_logs hotlp] at hlookup
      obtain ⟨level, rfl⟩ := h.logs key sub hlookup hotlp
      rw [hnone] at huri
      cases huri
    obtain ⟨hsub, hmissing, hclassify⟩ := (h.lookup_activated hotlp).1 hlookup
    exact ⟨sub, ⟨key, hsub, by simpa [hmissing] using hclassify⟩, huri⟩
  · rintro ⟨classified, ⟨sub, hsub, hclassify⟩, huri⟩
    split at hclassify
    · cases hclassify
    · next hmissing =>
      rcases classifyChannel_cases hclassify with ⟨-, -, level, rfl⟩ | ⟨hotlp, -⟩
      · rw [hnone] at huri
        cases huri
      · have hlookup := (h.lookup_activated hotlp).2 ⟨hsub, by simpa using hmissing, hclassify⟩
        exact ⟨⟨sub, classified⟩, AList.mem_lookup_iff.1 hlookup, huri⟩

theorem Begun.isRelevantToClient_activated
    (h : Begun names subscriptions client.subscriptions restore) (envelope : ActionEnvelope A) :
    isRelevantToClient names (activateSubscriptions client restore.pendingSubscriptions) envelope =
      isActionEnvelopeRelevantToSubscriptionUris names envelope
        (restoredChannels names subscriptions restore.missing) := by
  have hmem := h.mem_activated ChannelSubscription.activeUri fun _ _ => rfl
  unfold isRelevantToClient
  split
  · next hactive =>
    obtain ⟨uri, huri⟩ := Option.isSome_iff_exists.1 hactive
    obtain ⟨sub, hsub, hactive⟩ := Option.bind_eq_some_iff.1 huri
    have hchannel : envelope.channel = uri := by
      rw [← h.uri_activated hsub]
      revert hactive
      fun_cases ChannelSubscription.activeUri <;> simp [ChannelSubscription.uri]
    have hlisted : uri ∈ (activateSubscriptions client
        restore.pendingSubscriptions).subscriptions.entries.filterMap fun entry =>
          entry.2.activeUri :=
      List.mem_filterMap.2 ⟨⟨envelope.channel, sub⟩, AList.mem_lookup_iff.1 hsub, hactive⟩
    exact (relevant_of_mem (hchannel ▸ (hmem uri).1 hlisted)).symm
  · exact relevant_congr hmem

theorem Begun.isResubscribed_activated
    (h : Begun names subscriptions client.subscriptions restore) (uri : String) :
    isResubscribed (activateSubscriptions client restore.pendingSubscriptions) uri =
      ((restoredSubscriptions names subscriptions restore.missing).filterMap
        ChannelSubscription.stateUri).contains uri := by
  unfold isResubscribed
  rw [Bool.eq_iff_iff, List.contains_iff_mem, List.contains_iff_mem]
  exact h.mem_activated _ (fun _ _ => rfl) uri

/-- While subscriptions are restored nothing is relevant. -/
theorem Begun.isRelevantToClient_eq_false {begun : List String}
    (h : Begun names begun client.subscriptions restore) (envelope : ActionEnvelope A) :
    isRelevantToClient names client envelope = false := by
  have hinactive : ∀ uri sub, client.subscriptions.lookup uri = some sub →
      sub.activeUri = none := by
    intro uri sub hlookup
    have hpending := (h.held uri sub hlookup).2.1
    cases sub <;> simp_all [ChannelSubscription.pending, ChannelSubscription.activeUri]
  have hnone : client.subscriptions.entries.filterMap (fun entry => entry.2.activeUri) = [] := by
    rw [List.filterMap_eq_nil_iff]
    exact fun entry hentry => hinactive entry.1 entry.2 (AList.mem_lookup_iff.2 hentry)
  unfold isRelevantToClient
  rw [hnone]
  split
  · next hactive =>
    obtain ⟨uri, huri⟩ := Option.isSome_iff_exists.1 hactive
    obtain ⟨sub, hsub, hactive⟩ := Option.bind_eq_some_iff.1 huri
    rw [hinactive _ _ hsub] at hactive
    cases hactive
  · unfold isActionEnvelopeRelevantToSubscriptionUris
    simp

end

end NexgileIde.AgentHost
