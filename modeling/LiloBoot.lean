import LiloBoot.Cfg.CfgTheorems
import LiloBoot.Elf.LoadTheorems
import LiloBoot.ReiserFS.JournalRecoveryTheorems
import LiloBoot.ReiserFS.JournalLookupTheorems
import LiloBoot.ReiserFS.TreeOrderTheorems
import LiloBoot.ReiserFS.CacheTheorems
import LiloBoot.ReiserFS.ReadDataTheorems
import LiloBoot.ReiserFS.SuperTheorems
import LiloBoot.ReiserFS.OpenFileTheorems
import LiloBoot.XFS.ReadTheorems
import LiloBoot.XFS.AddressTheorems
import LiloBoot.XFS.DirTheorems
import LiloBoot.XFS.PathTheorems
import LiloBoot.Ext2.ReadTheorems
import LiloBoot.Ext2.ReadBlkTheorems
import LiloBoot.OfNet.NetTheorems
import LiloBoot.OfNet.OfReadTheorems
import LiloBoot.Boot.RamdiskTheorems
import LiloBoot.Boot.MemoryTheorems
import LiloBoot.Boot.PasswordTheorems
import LiloBoot.Boot.ManualConfigTheorems
import LiloBoot.Boot.BootLabelTheorems
import LiloBoot.Partition.GeometryTheorems
import LiloBoot.DevTree.EndTreeTheorems
import LiloBoot.DevTree.CallTheorems
import LiloBoot.DevPath.AliasTheorems
import LiloBoot.DevPath.UsableTheorems
import LiloBoot.Lib.SimpleAllocTheorems
import LiloBoot.DevPath.Ipv6Theorems
import LiloBoot.DevPath.LengthTheorems
import LiloBoot.Boot.LineEditTheorems
import LiloBoot.Boot.SpellingTheorems
import LiloBoot.DevPath.DefaultDeviceTheorems
import LiloBoot.Boot.ConfigFileName
import LiloBoot.Partition.GptTheorems
import LiloBoot.Lib.SiblingTree
import LiloBoot.Prom.FindType
import LiloBoot.Prom.FindTypeTheorems
import LiloBoot.ZImage.CheckElf
import LiloBoot.ZImage.GetCmdline
import LiloBoot.ZImage.GetCmdlineTheorems
import LiloBoot.Lib.Marker
import LiloBoot.ZImage.MkzimageCmdline
import LiloBoot.ZImage.Addnote
import LiloBoot.ZImage.AddnoteTheorems
import LiloBoot.ZImage.AddRamDisk
import LiloBoot.ZImage.AddRamDiskTheorems
import LiloBoot.ZImage.AddSystemMap
import LiloBoot.ZImage.AddSystemMapTheorems
import LiloBoot.ZImage.BootInfo
import LiloBoot.ZImage.Prep
import LiloBoot.DevTree.Find
import LiloBoot.DevTree.FindTheorems
import LiloBoot.Lib.Div64
import LiloBoot.Lib.Number
import LiloBoot.Lib.StrtolTheorems
import LiloBoot.XFS.RecordTheorems
import LiloBoot.Boot.SystemInfo
import LiloBoot.Lib.NumberTheorems
import LiloBoot.ZImage.GunzipHeader
import LiloBoot.ZImage.GunzipHeaderTheorems
import LiloBoot.Lib.BlockStream
import LiloBoot.Lib.Rfc1321
import LiloBoot.Lib.Md5
import LiloBoot.Lib.Md5Theorems
import LiloBoot.Lib.Md5Password
import LiloBoot.Lib.Md5PasswordTheorems
import LiloBoot.DevTree.Siblings
import LiloBoot.DevTree.GetPath
import LiloBoot.DevTree.Xlate
import LiloBoot.DevTree.XlateTheorems
import LiloBoot.ZImage.Vsprintf
import LiloBoot.ZImage.Printf
import LiloBoot.DevTree.Parent
import LiloBoot.DevTree.ParentTheorems
import LiloBoot.Partition.Session
import LiloBoot.Partition.SessionTheorems
import LiloBoot.Partition.SteadyTheorems
import LiloBoot.Partition.AmigaTheorems
