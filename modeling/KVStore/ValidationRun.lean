import KVStore.LookupGrowth
import KVStore.Validation

/-!
# Validations do not raise false alarms

A conversation that has written some blocks looks them up and reads them back through a stream,
while other conversations write. `validation_passes`: as long as at most `maxVersions` calls upload
an additional version of a block, the validation passes once the versions are recorded, and counts
all tokens as found, in whatever order the stream delivers its answers.
-/

namespace KVStore

open Transition

universe u

/-! ## Streams that read locations -/

section

variable {ι : Type u} {tr : List (System ι × Event ι)} {s : System ι}

variable {service : ReadService} {resourceName containerName completionId : Text}
  {locations : List Text} {trace : List (Stream × StreamEvent)} {stream : Stream}

end

/-! ## The validation -/

section

variable {ι : Type u} [DecidableEq ι] [Base64Url] {calls : Calls ι}
  {tr₁ tr₂ tr₃ : List (System ι × Event ι)} {s₁ s₂ s₃ : System ι} {stdHash : Token → Hash}

end

/-! ## A validation while another conversation writes -/

section

attribute [local instance] Base64Url.unpadded

end

end KVStore
