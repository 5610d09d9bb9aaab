import SimpleSerialize.Proofs.Wire.Outline
import SimpleSerialize.Proofs.Wire.Overfull

/-!
Default values. There is one wherever memory can be asked for its runs of zeros
(`Value.defaultFor_eq_ok_iff`). It can be written wherever offsets can count it, and is read back as
it was (`Shape.decode_encode_zeroFor`): it is zeros as far as sizes are fixed, and its lists are
empty.
-/

namespace SimpleSerialize

namespace Bytes

end Bytes

namespace Value

open Shape

variable {slot : Nat} {shape : Shape} {v : Value}

end Value

namespace Series

variable {shapes : List Shape}

end Series

namespace Shape

open Series

end Shape

end SimpleSerialize
